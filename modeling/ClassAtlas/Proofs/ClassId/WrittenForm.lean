import Mathlib.Data.List.Infix
import Mathlib.Data.List.TakeWhile
import Mathlib.Logic.Relation
import ClassAtlas.ClassPath

/-!
# Written forms of ids

Ids are told apart by how they are written, and all else that an id says is to follow from
that. It does for an id that is read back from its written form. What is written is a row of
brackets and a body behind them, and `ofText?` takes the two apart again unless the body of a
class starts with a bracket of its own.

Reading an id leaves a newline at the front of a name at most, and every operation on ids keeps
that, so few ids are not read back: classes without a name, classes whose name starts with a
bracket, and arrays of a class whose name starts with a newline. `IsFirm` says from which ids
none of these can be reached.
-/

namespace ClassAtlas

namespace ClassName

/-- A newline stands at the front of the name at most. -/
def IsLine (n : ClassName) : Prop :=
  '\n' ∉ n.text.toList.tail

@[simp] theorem toList_ofText (text : String) :
    (ofText text).text.toList = text.toList.map slashed :=
  String.toList_map

theorem newline_mem_map_slashed {chars : List Char} :
    '\n' ∈ chars.map slashed ↔ '\n' ∈ chars := by
  simp only [List.mem_map, slashed]
  constructor
  · rintro ⟨c, hc, hslashed⟩
    split at hslashed
    · exact absurd hslashed (by decide)
    · exact hslashed ▸ hc
  · intro h
    exact ⟨'\n', h, by decide⟩

theorem isLine_ofText {text : String} (h : '\n' ∉ text.toList.tail) : (ofText text).IsLine := by
  rwa [IsLine, toList_ofText, ← List.map_tail, newline_mem_map_slashed]

theorem topLevel_text_prefix (n : ClassName) : n.topLevel.text.toList <+: n.text.toList := by
  rw [← n.directory_append_leaf]
  simp only [topLevel, String.toList_ofList]
  exact (List.prefix_append_right_inj _).2 (List.takeWhile_prefix _)

theorem IsLine.topLevel {n : ClassName} (h : n.IsLine) : n.topLevel.IsLine := by
  unfold IsLine at h ⊢
  rw [← List.drop_one] at h ⊢
  exact fun hmem => h ((n.topLevel_text_prefix.drop 1).subset hmem)

theorem IsLine.newline_notMem {n : ClassName} (h : n.IsLine)
    (hhead : n.text.toList.head? ≠ some '\n') : '\n' ∉ n.text.toList := by
  unfold IsLine at h
  cases hchars : n.text.toList with
  | nil => simp
  | cons c rest =>
    rw [hchars] at h hhead
    have hc : '\n' ≠ c := fun heq => hhead (congrArg some heq.symm)
    exact List.not_mem_cons_of_ne_of_not_mem hc h

theorem topLevel_eq_self {n : ClassName} (h : '$' ∉ n.leaf) : n.topLevel = n := by
  apply ext_text
  apply String.toList_inj.1
  have hall : n.leaf.takeWhile (· != '$') = n.leaf := by
    rw [List.takeWhile_eq_self_iff]
    intro c hc
    simpa using fun hdollar : c = '$' => h (hdollar ▸ hc)
  simp only [topLevel, String.toList_ofList, hall, n.directory_append_leaf]

theorem leaf_topLevel (n : ClassName) : n.topLevel.leaf = n.leaf.takeWhile (· != '$') := by
  have hleaf : ∀ c ∈ (n.leaf.takeWhile (· != '$')).reverse, (c != '/') = true := by
    intro c hc
    have hmem := (List.takeWhile_sublist _).mem (List.mem_reverse.1 hc)
    simpa using fun hslash : c = '/' => n.slash_notMem_leaf (hslash ▸ hmem)
  have hdirectory : n.directory.reverse.takeWhile (· != '/') = [] := by
    rw [directory, List.reverse_reverse]
    exact List.takeWhile_eq_nil_iff.2 (List.dropWhile_get_zero_not (p := (· != '/')) _)
  rw [leaf, topLevel, String.toList_ofList, List.reverse_append,
    List.takeWhile_append_of_pos hleaf, hdirectory, List.append_nil, List.reverse_reverse]

/-- A top level is its own. -/
@[simp] theorem topLevel_topLevel (n : ClassName) : n.topLevel.topLevel = n.topLevel := by
  apply topLevel_eq_self
  rw [leaf_topLevel]
  intro h
  simpa using List.mem_takeWhile_imp h

/-- The part of the name that every class around it keeps starts with a character that is no
bracket and no newline. -/
def IsFirm (n : ClassName) : Prop :=
  ∃ c, n.topLevel.text.toList.head? = some c ∧ c ≠ '[' ∧ c ≠ '\n'

theorem IsFirm.topLevel {n : ClassName} (h : n.IsFirm) : n.topLevel.IsFirm := by
  rwa [IsFirm, topLevel_topLevel]

theorem IsFirm.head? {n : ClassName} (h : n.IsFirm) :
    ∃ c, n.text.toList.head? = some c ∧ c ≠ '[' ∧ c ≠ '\n' := by
  obtain ⟨c, hc, hplain⟩ := h
  obtain ⟨rest, hrest⟩ := n.topLevel_text_prefix
  refine ⟨c, ?_, hplain⟩
  rw [← hrest, List.head?_append, hc]
  rfl

end ClassName

theorem Primitive.letter_ne (p : Primitive) : p.letter ≠ '[' ∧ p.letter ≠ 'L' := by
  cases p <;> decide

theorem Primitive.letter_injective : Function.Injective letter := by
  intro p q h
  have hread := congrArg ofLetter? h
  rwa [ofLetter?_letter, ofLetter?_letter, Option.some.injEq] at hread

namespace ClassId

def body : ClassId → List Char
  | object 0 n => n.text.toList
  | object (_ + 1) n => 'L' :: n.text.toList ++ [';']
  | primitive _ p => [p.letter]

/-- A class whose name starts with a bracket, so that it is written like an array. -/
def IsBracketed : ClassId → Prop
  | object 0 n => n.text.toList.head? = some '['
  | _ => False

instance : DecidablePred IsBracketed
  | object 0 n => inferInstanceAs (Decidable (n.text.toList.head? = some '['))
  | object (_ + 1) _ => inferInstanceAs (Decidable False)
  | primitive _ _ => inferInstanceAs (Decidable False)

theorem toList_text (id : ClassId) : id.text.toList = brackets id.dimensions ++ id.body := by
  match id with
  | object 0 n => rfl
  | object (d + 1) n => simp [text, dimensions, body]
  | primitive f p => simp [text, dimensions, body]

theorem head?_body {id : ClassId} (h : ¬ id.IsBracketed) : id.body.head? ≠ some '[' := by
  match id with
  | object 0 n => exact h
  | object (d + 1) n => simp [body]
  | primitive f p => simpa [body] using p.letter_ne.1

theorem span_brackets_append {dimensions : Nat} {rest : List Char} (h : rest.head? ≠ some '[') :
    (brackets dimensions ++ rest).span (· == '[') = (brackets dimensions, rest) := by
  have hfront : ∀ c ∈ brackets dimensions, (c == '[') = true := by
    intro c hc
    simpa using List.eq_of_mem_replicate hc
  rw [List.span_eq_takeWhile_dropWhile, List.takeWhile_append_of_pos hfront,
    List.dropWhile_append_of_pos hfront]
  cases rest with
  | nil => simp
  | cons c rest =>
    have hc : (c == '[') = false := by simpa using h
    simp [hc]

theorem span_text {id : ClassId} (h : ¬ id.IsBracketed) :
    id.text.toList.span (· == '[') = (brackets id.dimensions, id.body) := by
  rw [toList_text, span_brackets_append (head?_body h)]

theorem ofText?_text {id : ClassId} (h : ¬ id.IsBracketed) :
    ofText? id.text =
      if id.dimensions = 0 then plain? id.body else arrayBody? id.dimensions id.body := by
  unfold ofText?
  rw [span_text h]
  cases id.dimensions <;> simp [brackets]

/-- Ids that are written alike are the same, unless one of them is a class that is written
like an array. -/
theorem eq_of_text_eq {a b : ClassId} (h : a.text = b.text) (ha : ¬ a.IsBracketed)
    (hb : ¬ b.IsBracketed) : a = b := by
  have hspan := span_text ha
  rw [h, span_text hb, Prod.mk.injEq] at hspan
  have hdimensions : b.dimensions = a.dimensions := by
    simpa [brackets] using congrArg List.length hspan.1
  have hbody := hspan.2
  match a, b with
  | object 0 m, object 0 n =>
    rw [ClassName.ext_text (String.toList_inj.1 hbody)]
  | object (d + 1) m, object (e + 1) n =>
    have hname : n = m := by
      apply ClassName.ext_text
      apply String.toList_inj.1
      simpa [body] using hbody
    have hd : e = d := by simpa [dimensions] using hdimensions
    rw [hname, hd]
  | primitive d p, primitive e q =>
    have hletter : q = p := Primitive.letter_injective (by simpa [body] using hbody)
    have hd : e = d := by simpa [dimensions] using hdimensions
    rw [hletter, hd]
  | object (d + 1) m, primitive e q =>
    have hletter : q.letter = 'L' := (List.cons.inj hbody).1
    exact absurd hletter q.letter_ne.2
  | primitive d p, object (e + 1) n =>
    have hletter : 'L' = p.letter := (List.cons.inj hbody).1
    exact absurd hletter.symm p.letter_ne.2
  | object 0 m, object (e + 1) n => simp [dimensions] at hdimensions
  | object 0 m, primitive e q => simp [dimensions] at hdimensions
  | object (d + 1) m, object 0 n => simp [dimensions] at hdimensions
  | primitive d p, object 0 n => simp [dimensions] at hdimensions

/-! ### What is read back -/

/-- Whether the written form can be read and says the same as the id. -/
def ReadsBack (id : ClassId) : Prop :=
  ∃ read, parse id.text = .ok read ∧ read.segments = id.segments ∧
    read.dimensions = id.dimensions ∧ read.isPrimitive = id.isPrimitive ∧
    read.isAnonymous = id.isAnonymous

/-- A class needs a name that does not start with a bracket. The name of a class with dimensions
must not start with a newline. -/
def IsReadable : ClassId → Prop
  | object 0 n => n.text.toList.head? ≠ none ∧ n.text.toList.head? ≠ some '['
  | object (_ + 1) n => n.text.toList.head? ≠ some '\n'
  | primitive _ _ => True

instance : DecidablePred IsReadable
  | object 0 n =>
    inferInstanceAs (Decidable (n.text.toList.head? ≠ none ∧ n.text.toList.head? ≠ some '['))
  | object (_ + 1) n => inferInstanceAs (Decidable (n.text.toList.head? ≠ some '\n'))
  | primitive _ _ => inferInstanceAs (Decidable True)

theorem parse_eq_ok {text : String} {id : ClassId} :
    parse text = .ok id ↔ ofText? text = some id := by
  unfold parse
  cases ofText? text <;> simp

theorem ofText?_text_array (d : Nat) (n : ClassName) :
    ofText? (object (d + 1) n).text =
      if '\n' ∈ n.text.toList then none else some (object (d + 1) n) := by
  have hbracketed : ¬ (object (d + 1) n).IsBracketed := not_false
  have hdimensions : (object (d + 1) n).dimensions ≠ 0 := by simp [dimensions]
  rw [ofText?_text hbracketed, if_neg hdimensions]
  change arrayBody? (d + 1) ('L' :: (n.text.toList ++ [';'])) = _
  by_cases h : '\n' ∈ n.text.toList <;> simp [arrayBody?, h]

theorem dimensions_ne_zero_of_arrayBody? {dimensions : Nat} {chars : List Char} {id : ClassId}
    (h : arrayBody? dimensions chars = some id) (hpos : dimensions ≠ 0) : id.dimensions ≠ 0 := by
  unfold arrayBody? at h
  split at h
  · split at h
    · cases h
      exact hpos
    · cases h
  · obtain ⟨p, -, rfl⟩ := Option.map_eq_some_iff.1 h
    simp [ClassId.dimensions]
  · cases h

theorem dimensions_ne_zero_of_ofText? {text : String} {id : ClassId}
    (h : ofText? text = some id) (hfront : text.toList.head? = some '[') : id.dimensions ≠ 0 := by
  obtain ⟨rest, hrest⟩ := List.head?_eq_some_iff.1 hfront
  unfold ofText? at h
  rw [hrest, List.span_eq_takeWhile_dropWhile] at h
  simp only [List.takeWhile_cons, beq_self_eq_true, if_true, List.isEmpty_cons,
    Bool.false_eq_true, if_false] at h
  exact dimensions_ne_zero_of_arrayBody? h (by simp)

theorem parse_text_of_isReadable {id : ClassId} (hline : ∀ n, id.className? = some n → n.IsLine)
    (h : id.IsReadable) : parse id.text = .ok id := by
  rw [parse_eq_ok]
  match id with
  | object 0 n =>
    have hbracketed : ¬ (object 0 n).IsBracketed := h.2
    obtain ⟨c, hc⟩ := Option.ne_none_iff_exists'.1 h.1
    obtain ⟨rest, hrest⟩ := List.head?_eq_some_iff.1 hc
    have hnewline : '\n' ∉ rest := by
      have := hline n rfl
      rwa [ClassName.IsLine, hrest] at this
    rw [ofText?_text hbracketed, if_pos (show (object 0 n).dimensions = 0 from rfl)]
    change plain? n.text.toList = _
    rw [hrest, plain?, if_neg hnewline, ← hrest, String.ofList_toList, ClassName.ofText_text]
  | object (d + 1) n =>
    have hnewline : '\n' ∉ n.text.toList := (hline n rfl).newline_notMem h
    rw [ofText?_text_array, if_neg hnewline]
  | primitive f p =>
    have hbracketed : ¬ (primitive f p).IsBracketed := not_false
    rw [ofText?_text hbracketed, if_neg (show (primitive f p).dimensions ≠ 0 by simp [dimensions])]
    change arrayBody? (f + 1) [p.letter] = _
    cases p <;> rfl

theorem isReadable_of_readsBack {id : ClassId} (h : id.ReadsBack) : id.IsReadable := by
  obtain ⟨read, hread, -, hdimensions, -⟩ := h
  rw [parse_eq_ok] at hread
  match id with
  | object 0 n =>
    change ofText? n.text = some read at hread
    have hname : n.text.toList.head? ≠ none := by
      intro hnone
      have hempty : n.text = "" := String.toList_inj.1 (List.head?_eq_none_iff.1 hnone)
      rw [hempty] at hread
      cases hread
    have hbracket : n.text.toList.head? ≠ some '[' := fun hfront =>
      dimensions_ne_zero_of_ofText? hread hfront hdimensions
    exact ⟨hname, hbracket⟩
  | object (d + 1) n =>
    intro hfront
    have hnewline : '\n' ∈ n.text.toList := List.mem_of_mem_head? hfront
    rw [ofText?_text_array, if_pos hnewline] at hread
    cases hread
  | primitive f p => trivial

theorem isLine_of_ofText? {text : String} {id : ClassId} {n : ClassName}
    (h : ofText? text = some id) (hn : id.className? = some n) : n.IsLine := by
  unfold ofText? at h
  dsimp only at h
  split at h
  · unfold plain? at h
    split at h
    · cases h
    · split at h
      · cases h
      · next hline =>
        cases h
        cases hn
        exact ClassName.isLine_ofText (by simpa using hline)
  · unfold arrayBody? at h
    split at h
    · split at h
      · next hbody =>
        cases h
        cases hn
        apply ClassName.isLine_ofText
        rw [String.toList_ofList]
        exact fun hmem => hbody.2 (List.mem_of_mem_tail hmem)
      · cases h
    · obtain ⟨p, -, rfl⟩ := Option.map_eq_some_iff.1 h
      cases hn
    · cases h

/-! ### What can be done with an id -/

/-- One id and what an operation makes of it. -/
inductive Step : ClassId → ClassId → Prop
  | arrayOf (id : ClassId) (more : Nat) : Step id (id.arrayOf more)
  | element {id next : ClassId} (h : id.element? = some next) : Step id next
  | base {id next : ClassId} (h : id.base? = some next) : Step id next
  | innermost {id next : ClassId} (h : id.innermost? = some next) : Step id next
  | topLevel (id : ClassId) : Step id id.topLevel

theorem className?_topLevel (id : ClassId) :
    id.topLevel.className? = id.className?.map ClassName.topLevel := by
  match id with
  | object d n =>
    by_cases h : '$' ∈ n.leaf
    · simp [topLevel, h, ClassId.className?]
    · simp [topLevel, h, ClassId.className?, ClassName.topLevel_eq_self h]
  | primitive f p => rfl

theorem Step.className? {id next : ClassId} (h : Step id next) :
    next.className? = id.className? ∨
      next.className? = id.className?.map ClassName.topLevel := by
  cases h with
  | arrayOf more => exact Or.inl (className?_arrayOf more id)
  | topLevel => exact Or.inr (className?_topLevel id)
  | element h =>
    left
    match id with
    | object (d + 1) n => cases h; rfl
    | primitive (f + 1) p => cases h; rfl
  | base h =>
    left
    match id with
    | object d n => cases h; rfl
  | innermost h =>
    left
    match id with
    | object (d + 1) n => cases h; rfl

/-- What holds of the name of a class and then of its top level holds whatever is done. -/
theorem Step.preserves {P : ClassName → Prop} (hP : ∀ n, P n → P n.topLevel) {start id : ClassId}
    (h : Relation.ReflTransGen Step start id) (hstart : ∀ n, start.className? = some n → P n) :
    ∀ n, id.className? = some n → P n := by
  induction h with
  | refl => exact hstart
  | tail hsteps hstep ih =>
    intro n hn
    rcases hstep.className? with hname | hname
    · exact ih n (hname ▸ hn)
    · rw [hname] at hn
      obtain ⟨m, hm, rfl⟩ := Option.map_eq_some_iff.1 hn
      exact hP m (ih m hm)

/-- Whatever is done with the id, the class keeps a name that can be read. -/
def IsFirm (id : ClassId) : Prop :=
  ∀ n, id.className? = some n → n.IsFirm

theorem IsFirm.isReadable {id : ClassId} (h : id.IsFirm) : id.IsReadable := by
  match id with
  | object 0 n =>
    obtain ⟨c, hc, hbracket, -⟩ := (h n rfl).head?
    exact ⟨by simp [hc], by simpa [hc] using hbracket⟩
  | object (d + 1) n =>
    obtain ⟨c, hc, -, hnewline⟩ := (h n rfl).head?
    have : n.text.toList.head? ≠ some '\n' := by simpa [hc] using hnewline
    exact this
  | primitive f p => trivial

theorem readsBack_of_isReadable {id : ClassId} (hline : ∀ n, id.className? = some n → n.IsLine)
    (h : id.IsReadable) : id.ReadsBack :=
  ⟨id, parse_text_of_isReadable hline h, rfl, rfl, rfl, rfl⟩

theorem arrayOf_ofName (n : ClassName) (more : Nat) :
    (ofName n).arrayOf more = object more n := by
  simp [arrayOf]

theorem topLevel_ofName (n : ClassName) : (ofName n).topLevel = ofName n.topLevel := by
  by_cases h : '$' ∈ n.leaf
  · simp [topLevel, h]
  · simp [topLevel, h, ClassName.topLevel_eq_self h]

/-- An id is firm if all that it leads to can be read: the top level of its class needs a name
without a bracket, and the arrays of that one without a newline. -/
theorem isFirm_of_readable {start : ClassId}
    (h : ∀ id, Relation.ReflTransGen Step start id → id.IsReadable) : start.IsFirm := by
  intro n hn
  have hbase : Relation.ReflTransGen Step start (ofName n) :=
    .single (.base (by simp [base?, hn]))
  have htop : Relation.ReflTransGen Step start (ofName n.topLevel) :=
    topLevel_ofName n ▸ hbase.tail (.topLevel _)
  have harray : Relation.ReflTransGen Step start (object 1 n.topLevel) :=
    arrayOf_ofName n.topLevel 1 ▸ htop.tail (.arrayOf _ 1)
  obtain ⟨hname, hbracket⟩ := h _ htop
  have hnewline : n.topLevel.text.toList.head? ≠ some '\n' := h _ harray
  obtain ⟨c, hc⟩ := Option.ne_none_iff_exists'.1 hname
  exact ⟨c, hc, by simpa [hc] using hbracket, by simpa [hc] using hnewline⟩

/-- Of what can be made of an id that was read, exactly the readable is read back, and nothing
else comes up exactly if the id is firm. Ids that are written alike have the same base, element,
package and files unless one of them is a class that is written like an array. -/
theorem readsBack_iff {text : String} {start : ClassId} (hstart : parse text = .ok start) :
    (∀ id, Relation.ReflTransGen Step start id → (id.ReadsBack ↔ id.IsReadable)) ∧
      ((∀ id, Relation.ReflTransGen Step start id → id.ReadsBack) ↔ start.IsFirm) ∧
      ∀ a b : ClassId, (a == b) = true → ¬ a.IsBracketed → ¬ b.IsBracketed →
        a.base? = b.base? ∧ a.element? = b.element? ∧ a.package? = b.package? ∧
          ∀ kind root, a.pathBelow? kind root = b.pathBelow? kind root := by
  have hline : ∀ n, start.className? = some n → n.IsLine := fun n hn =>
    isLine_of_ofText? (parse_eq_ok.1 hstart) hn
  have hreads : ∀ id, Relation.ReflTransGen Step start id → (id.ReadsBack ↔ id.IsReadable) := by
    intro id hsteps
    have hline' : ∀ n, id.className? = some n → n.IsLine :=
      Step.preserves (fun _ h => h.topLevel) hsteps hline
    exact ⟨isReadable_of_readsBack, readsBack_of_isReadable hline'⟩
  refine ⟨hreads, ⟨fun h => ?_, fun hfirm id hsteps => ?_⟩, ?_⟩
  · exact isFirm_of_readable fun id hsteps => (hreads id hsteps).1 (h id hsteps)
  · have hfirm' : id.IsFirm := Step.preserves (fun _ h => h.topLevel) hsteps hfirm
    exact (hreads id hsteps).2 hfirm'.isReadable
  · intro a b heq ha hb
    have htext : a.text = b.text := @eq_of_beq String _ _ _ _ heq
    obtain rfl := eq_of_text_eq htext ha hb
    exact ⟨rfl, rfl, rfl, fun _ _ => rfl⟩

/-- Whatever is done with `[[La/b.C$D;`, the result is read back, and it is the same id however
its package is separated. -/
theorem readsBack_iff_nested :
    parse "[[La/b.C$D;" = .ok (object 2 (.ofText "a/b.C$D")) ∧
      (∀ id, Relation.ReflTransGen Step (object 2 (.ofText "a/b.C$D")) id → id.ReadsBack) ∧
      (object 2 (.ofText "a/b.C$D") == object 2 (.ofText "a.b/C$D")) = true ∧
      (object 2 (.ofText "a/b.C$D")).element? = (object 2 (.ofText "a.b/C$D")).element? := by
  have hparse : parse "[[La/b.C$D;" = .ok (object 2 (.ofText "a/b.C$D")) := by
    rw [parse_eq_ok]
    decide +kernel
  have hfirm : (object 2 (.ofText "a/b.C$D")).IsFirm := by
    intro n hn
    cases hn
    exact ⟨'a', by decide +kernel, by decide, by decide⟩
  have heq : (object 2 (.ofText "a/b.C$D") == object 2 (.ofText "a.b/C$D")) = true := by
    cbv
  obtain ⟨-, hreads, hequal⟩ := readsBack_iff hparse
  exact ⟨hparse, hreads.2 hfirm, heq, (hequal _ _ heq not_false not_false).2.1⟩

/-- Not every id is read back, and not all ids that are written alike are the same. The top level
of `$x` has no name, an array of the class `\nA` has a newline in its middle, and the base of
`[L[I;` is written like an array of integers and is none. -/
theorem exists_not_readsBack :
    (parse "$x" = .ok (ofName (.ofText "$x")) ∧ ¬ (ofName (.ofText "$x")).topLevel.ReadsBack) ∧
      (parse "\nA" = .ok (ofName (.ofText "\nA")) ∧
        ¬ ((ofName (.ofText "\nA")).arrayOf 1).ReadsBack) ∧
      ∃ start base ints : ClassId, parse "[L[I;" = .ok start ∧ start.base? = some base ∧
        parse "[I" = .ok ints ∧ (base == ints) = true ∧ base.base? ≠ ints.base? ∧
        base.pathBelow? .source "" ≠ ints.pathBelow? .source "" ∧ ¬ base.ReadsBack := by
  refine ⟨⟨parse_eq_ok.2 (by decide +kernel), fun h => ?_⟩,
    ⟨parse_eq_ok.2 (by decide +kernel), fun h => ?_⟩,
    object 1 (.ofText "[I"), ofName (.ofText "[I"), primitive 0 .int,
    parse_eq_ok.2 (by decide +kernel), rfl, parse_eq_ok.2 (by decide +kernel),
    by decide +kernel, by decide, by decide +kernel, fun h => ?_⟩
  · exact absurd (isReadable_of_readsBack h) (by decide +kernel)
  · exact absurd (isReadable_of_readsBack h) (by decide +kernel)
  · exact absurd (isReadable_of_readsBack h) (by decide +kernel)

end ClassId

end ClassAtlas
