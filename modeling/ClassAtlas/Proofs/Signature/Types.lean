import Mathlib.Data.List.TakeWhile
import Mathlib.Tactic.FinCases
import ClassAtlas.Proofs.Signature.Grammar
import ClassAtlas.Proofs.Signature.Reading

/-!
# Reading types

Every type of the grammar is read from its text, at each number of levels that has room for
it. A type costs fewer steps than its text has bytes: each class in it takes one step, and
each type argument one more, and both take bytes beyond those of the names in them.
-/

namespace ClassAtlas.Signature

open Scan

/-- What stands behind a text starts with `c`. -/
def From (c : Char) : List Char → Prop :=
  fun rest => rest.head? = some c

/-- The parser of types with so many levels left. -/
def below : Nat → Option (Scan Bool)
  | 0 => none
  | levels + 1 => some (fieldTypeOf levels)

theorem fieldTypeOf_eq (levels : Nat) : fieldTypeOf levels = fieldTypeIn (below levels) := by
  cases levels <;> rfl

theorem entered_below_succ (levels : Nat) :
    entered (below (levels + 1)) = pure (fieldTypeIn (below levels)) := by
  rw [← fieldTypeOf_eq]
  rfl

theorem Identifier.notMem (i : Identifier) {c : Char}
    (hc : c ∈ ['.', ';', '[', '/', '<', '>', ':', '\n']) : c ∉ i.chars :=
  fun h => i.plain c h hc

theorem Identifier.ne_of_mem (i : Identifier) {c d : Char} (hd : d ∈ i.chars)
    (hc : c ∈ ['.', ';', '[', '/', '<', '>', ':', '\n']) : d ≠ c :=
  fun h => i.notMem hc (h ▸ hd)

theorem Identifier.not_endsName (i : Identifier) {d : Char} (hd : d ∈ i.chars) : ¬ endsName d := by
  have h₁ := i.ne_of_mem hd (c := ';') (by decide)
  have h₂ := i.ne_of_mem hd (c := '<') (by decide)
  have h₃ := i.ne_of_mem hd (c := '.') (by decide)
  simp [endsName, h₁, h₂, h₃]

/-- A character that stands neither for an array nor for the end of a line. -/
def InName (c : Char) : Prop :=
  c ≠ '[' ∧ c ≠ '\n'

theorem Identifier.inName (i : Identifier) {d : Char} (hd : d ∈ i.chars) : InName d :=
  ⟨i.ne_of_mem hd (by decide), i.ne_of_mem hd (by decide)⟩

theorem ofText?_ofList {name : List Char} (hne : name ≠ []) (hplain : ∀ c ∈ name, InName c) :
    ClassId.ofText? (String.ofList name) = some (classOf name) := by
  cases name with
  | nil => exact absurd rfl hne
  | cons c rest =>
    have hc : (c == '[') = false := by simpa using (hplain c (by simp)).1
    have hspan : (c :: rest).span (· == '[') = ([], c :: rest) := by
      rw [List.span_eq_takeWhile_dropWhile]
      simp [hc]
    have hline : '\n' ∉ rest := fun h => (hplain '\n' (by simp [h])).2 rfl
    unfold ClassId.ofText?
    rw [String.toList_ofList, hspan]
    simp [ClassId.plain?, hline, classOf]

/-! ### Productions that do not start -/

theorem skips_typeVariable : Reads (NotFrom 'T') typeVariable false 0 [] [] := by
  unfold typeVariable
  apply reads_peek_nil
  intro rest hrest
  rw [if_pos (show rest.head? ≠ some 'T' from hrest)]
  exact reads_pure _ false

theorem skips_arrayType (inner : Option (Scan Bool)) :
    Reads (NotFrom '[') (arrayType inner) false 0 [] [] := by
  unfold arrayType
  exact (skips_accept '[').finally (reads_pure _ false)

theorem skips_classType (inner : Option (Scan Bool)) :
    Reads (NotFrom 'L') (classType inner) false 0 [] [] := by
  unfold classType
  exact (skips_accept 'L').finally (reads_pure _ false)

/-- What stands behind a text does not start with a class, an array or a type variable. -/
def NotFieldType : List Char → Prop :=
  fun rest => NotFrom 'L' rest ∧ NotFrom '[' rest ∧ NotFrom 'T' rest

theorem skips_fieldTypeIn (inner : Option (Scan Bool)) :
    Reads NotFieldType (fieldTypeIn inner) false 0 [] [] := by
  unfold fieldTypeIn
  refine reads_either_right (skips_classType inner) ?_ fun rest hrest => hrest.1
  refine reads_either_right (skips_arrayType inner) ?_ fun rest hrest => hrest.2.1
  exact skips_typeVariable.weaken (Nat.le_refl 0) fun rest hrest => hrest.2.2

theorem skips_typeArguments (inner : Option (Scan Bool)) :
    Reads (NotFrom '<') (typeArguments inner) () 0 [] [] := by
  unfold typeArguments
  exact (skips_accept '<').finally (reads_pure _ ())

/-! ### Names -/

theorem reads_typeVariable (i : Identifier) :
    Reads Anything typeVariable true 0 ('T' :: i.chars ++ [';']) [] := by
  have hname : ∀ d ∈ 'T' :: i.chars, (d != ';') = true := by
    intro d hd
    rcases List.mem_cons.1 hd with rfl | hd
    · decide
    · simpa using i.ne_of_mem hd (by decide)
  unfold typeVariable
  apply reads_peek
  rw [if_neg (by simp)]
  refine reads_get (g := fun rest => do pass ('T' :: i.chars ++ [';']) rest; pure true) ?_ ?_
  · intro s rest _ hs
    have hsplit : s.rest = 'T' :: i.chars ++ ';' :: rest := by
      rw [hs]
      simp
    rw [hsplit, span_append_cons hname (by decide)]
  · intro rest _
    exact Reads.finally (f := fun _ => pure true) (reads_pass _ rest) (reads_pure _ true)

/-- A simple name, with the character that ends it. -/
def FromName : List Char → Prop :=
  fun rest => ∃ (i : Identifier) (c : Char) (tail : List Char),
    rest = i.chars ++ c :: tail ∧ endsName c

theorem eq_or_mem_of_mem_packagesText {l : List Identifier} {d : Char}
    (hd : d ∈ packagesText l) : d = '/' ∨ ∃ i ∈ l, d ∈ i.chars := by
  obtain ⟨i, hi, hmem⟩ := List.mem_flatMap.1 hd
  rcases List.mem_append.1 hmem with h | h
  · exact Or.inr ⟨i, hi, h⟩
  · exact Or.inl (List.mem_singleton.1 h)

theorem takeWhile_reverse_packagesText (l : List Identifier) (i : Identifier) :
    (packagesText l ++ i.chars).reverse.takeWhile (· != '/') = i.chars.reverse := by
  have hname : ∀ d ∈ i.chars.reverse, (d != '/') = true := by
    intro d hd
    simpa using i.ne_of_mem (List.mem_reverse.1 hd) (by decide)
  rcases List.eq_nil_or_concat l with rfl | ⟨before, last, rfl⟩
  · exact List.takeWhile_eq_self_iff.2 hname
  · have h : (packagesText (before.concat last) ++ i.chars).reverse =
        i.chars.reverse ++ '/' :: (packagesText before ++ last.chars).reverse := by
      simp [packagesText]
    rw [h]
    exact takeWhile_append_cons hname (by decide)

/-- The length of the packages at the front of a name. -/
def packagesLength (name : List Char) : Nat :=
  name.length - (name.reverse.takeWhile (· != '/')).length

/-- Of any name, the packages are read, and the rest of it stays ahead. -/
theorem reads_packages_of_not_endsName {name : List Char} (hname : ∀ d ∈ name, ¬ endsName d) :
    Reads (fun rest => ∃ c tail, rest = name.drop (packagesLength name) ++ c :: tail ∧ endsName c)
      packages (String.ofList (name.take (packagesLength name))) 0
      (name.take (packagesLength name)) [] := by
  unfold packages
  refine reads_get (g := fun rest => do
    pass (name.take (packagesLength name)) rest
    pure (String.ofList (name.take (packagesLength name)))) ?_ ?_
  · rintro s rest ⟨c, tail, rfl, hc⟩ hs
    rw [← List.append_assoc, List.take_append_drop] at hs
    have hfront : s.rest.takeWhile (!endsName ·) = name := by
      rw [hs]
      exact takeWhile_append_cons (fun d hd => by simpa using hname d hd) (by simp [hc])
    have hle : packagesLength name ≤ name.length := Nat.sub_le _ _
    dsimp only
    rw [hfront, ← packagesLength, hs, List.length_take, Nat.min_eq_left hle,
      List.drop_append_of_le_length hle]
  · intro rest _
    exact Reads.finally (f := fun _ => pure _) (reads_pass _ rest) (reads_pure _ _)

theorem reads_packages (l : List Identifier) :
    Reads FromName packages (String.ofList (packagesText l)) 0 (packagesText l) [] := by
  rintro s rest ⟨i, c, tail, rfl, hc⟩
  have hname : ∀ d ∈ packagesText l ++ i.chars, ¬ endsName d := by
    intro d hd
    rcases List.mem_append.1 hd with hd | hd
    · rcases eq_or_mem_of_mem_packagesText hd with rfl | ⟨j, -, hj⟩
      · decide
      · exact j.not_endsName hj
    · exact i.not_endsName hd
  have hlength : packagesLength (packagesText l ++ i.chars) = (packagesText l).length := by
    rw [packagesLength, takeWhile_reverse_packagesText, List.length_append, List.length_reverse,
      Nat.add_sub_cancel]
  have h := reads_packages_of_not_endsName hname s (i.chars ++ c :: tail)
  rw [hlength, List.take_left, List.drop_left] at h
  exact h ⟨c, tail, rfl, hc⟩

/-! ### Simple classes -/

def SimpleClass.arguments : SimpleClass → List TypeArgument
  | .mk _ arguments => arguments

def SimpleClass.brackets : SimpleClass → List Char
  | .mk _ [] => []
  | .mk _ arguments => '<' :: argumentsText arguments ++ ['>']

theorem SimpleClass.text_eq (c : SimpleClass) : c.text = c.name.chars ++ c.brackets := by
  obtain ⟨name, arguments⟩ := c
  cases arguments with
  | nil => simp [SimpleClass.text, SimpleClass.brackets, SimpleClass.name]
  | cons argument rest => simp [SimpleClass.text, SimpleClass.brackets, SimpleClass.name]

theorem SimpleClass.classes_eq (c : SimpleClass) (before : List Char) :
    c.classes before = classOf (before ++ c.name.chars) :: argumentsClasses c.arguments := by
  obtain ⟨name, arguments⟩ := c
  rfl

theorem suffixesText_append (nested : List SimpleClass) (rest : List Char) :
    ∃ d tail, suffixesText nested ++ ';' :: rest = d :: tail ∧ endsName d ∧ d ≠ '<' := by
  cases nested with
  | nil => exact ⟨';', rest, rfl, by decide, by decide⟩
  | cons c nested => exact ⟨'.', _, rfl, by decide, by decide⟩

/-- What stands behind the name of a class is not part of it. -/
theorem SimpleClass.brackets_append (c : SimpleClass) (nested : List SimpleClass)
    (rest : List Char) : ∃ d tail,
    c.brackets ++ (suffixesText nested ++ ';' :: rest) = d :: tail ∧ endsName d := by
  obtain ⟨name, arguments⟩ := c
  cases arguments with
  | nil =>
    obtain ⟨d, tail, h, hends, -⟩ := suffixesText_append nested rest
    exact ⟨d, tail, h, hends⟩
  | cons argument others => exact ⟨'<', _, rfl, by decide⟩

theorem length_le_bytes_suffixesText (nested : List SimpleClass) :
    nested.length ≤ bytes (suffixesText nested) := by
  induction nested with
  | nil => simp
  | cons c nested ih =>
    have hdot : ('.').utf8Size = 1 := by decide
    simp only [suffixesText, List.cons_append, bytes_cons, bytes_append, List.length_cons]
    omega

/-- Suffixes, which `next` reads behind the dot, or the end of a class type. -/
def suffixesOrEnd (next : Scan Unit) : Scan Unit := do
  if ← accept '.' then next else expect ';'

/-- Hands over a class and reads on behind its name. -/
def handOver (inner : Option (Scan Bool)) (next : Scan Unit) (id : ClassId)
    (name rest : List Char) : Scan Unit := do
  submit id
  pass name rest
  typeArguments inner
  suffixesOrEnd next

/-- Reads one class of a row, whose name is that of `outer` and the one ahead. -/
def simpleClass (inner : Option (Scan Bool)) (next : String → Scan Unit) (outer : String) :
    Scan Unit := do
  let s ← get
  let split := s.rest.span (!endsName ·)
  let full := outer ++ String.ofList split.1
  match ClassId.ofText? full with
  | none => fail (.badClassName full)
  | some id => handOver inner (next (full ++ "$")) id split.1 split.2

theorem simpleClasses_succ (inner : Option (Scan Bool)) (rounds : Nat) (outer : String) :
    simpleClasses inner (rounds + 1) outer =
      tick >>= fun _ => simpleClass inner (simpleClasses inner rounds) outer :=
  rfl

theorem reads_end (next : Scan Unit) : Reads Anything (suffixesOrEnd next) () 0 [';'] [] :=
  Reads.bind (f := fun b => if b then next else expect ';') (skips_accept '.')
    (reads_expect Anything ';') (by simp [NotFrom])

theorem reads_suffixes {next : Scan Unit} {cost : Nat} {nested : List SimpleClass}
    {found : List ClassId} (hend : nested = [] → found = [])
    (hnext : ∀ c rest, nested = c :: rest →
      Reads Anything next () cost (c.text ++ suffixesText rest ++ [';']) found) :
    Reads Anything (suffixesOrEnd next) () cost (suffixesText nested ++ [';']) found := by
  cases nested with
  | nil =>
    rw [hend rfl]
    exact (reads_end next).weaken (Nat.zero_le cost) fun _ hrest => hrest
  | cons c rest =>
    have h : Reads Anything (suffixesOrEnd next) () cost _ found :=
      reads_after_accept (c := '.') (hnext c rest rfl)
    simpa [suffixesText] using h

/-- A class is handed over and its name passed. Then its type arguments are read, and what
`next` reads behind these. -/
theorem reads_handOver {inner : Option (Scan Bool)} {next : Scan Unit} {id : ClassId}
    {name brackets suffixes rest : List Char} {cost more : Nat} {found others : List ClassId}
    (harguments : Reads (NotFrom '<') (typeArguments inner) () cost brackets found)
    (hnext : Reads Anything (suffixesOrEnd next) () more suffixes others)
    (hbehind : ∀ rest, NotFrom '<' (suffixes ++ rest)) :
    Reads (· = rest) (handOver inner next id name (brackets ++ (suffixes ++ rest))) ()
      (cost + more) (name ++ (brackets ++ suffixes)) (id :: found ++ others) := by
  have hbrackets : Reads Anything (typeArguments inner >>= fun _ => suffixesOrEnd next) ()
      (cost + more) (brackets ++ suffixes) (found ++ others) :=
    harguments.bind hnext fun rest _ => hbehind rest
  have hpass : Reads (· = rest)
      (pass name (brackets ++ (suffixes ++ rest)) >>= fun _ =>
        typeArguments inner >>= fun _ => suffixesOrEnd next) () (0 + (cost + more))
      (name ++ (brackets ++ suffixes)) ([] ++ (found ++ others)) := by
    refine (reads_pass name _).bind (hbrackets.weaken (Nat.le_refl _) fun _ _ => trivial) ?_
    rintro _ rfl
    exact List.append_assoc _ _ _
  have h := Reads.andThen (f := fun _ => pass name _ >>= fun _ =>
    typeArguments inner >>= fun _ => suffixesOrEnd next) (reads_submit Anything id) hpass
  simpa [handOver] using h

theorem ofText?_append {outer : List Char} {i : Identifier}
    (houter : ∀ d ∈ outer, InName d) :
    ClassId.ofText? (String.ofList outer ++ String.ofList i.chars) =
      some (classOf (outer ++ i.chars)) := by
  rw [← String.ofList_append]
  refine ofText?_ofList (by simp [i.nonempty]) ?_
  intro d hd
  rcases List.mem_append.1 hd with hd | hd
  · exact houter d hd
  · exact i.inName hd

/-- One class is read when its name ends where its type arguments start, or what is behind
these, and when `outer` and the name can be read as an id. -/
theorem reads_simpleClass_of_ofText? {inner : Option (Scan Bool)} {next : String → Scan Unit}
    {outer : String} {name brackets suffixes : List Char} {id : ClassId} {cost more : Nat}
    {found others : List ClassId} (hname : ∀ d ∈ name, ¬ endsName d)
    (hends : ∀ rest, ∃ d tail, brackets ++ (suffixes ++ rest) = d :: tail ∧ endsName d)
    (hid : ClassId.ofText? (outer ++ String.ofList name) = some id)
    (harguments : Reads (NotFrom '<') (typeArguments inner) () cost brackets found)
    (hnext : Reads Anything (suffixesOrEnd (next (outer ++ String.ofList name ++ "$"))) () more
      suffixes others)
    (hbehind : ∀ rest, NotFrom '<' (suffixes ++ rest)) :
    Reads Anything (simpleClass inner next outer) () (cost + more)
      (name ++ (brackets ++ suffixes)) (id :: found ++ others) := by
  unfold simpleClass
  refine reads_get (fun s rest _ hs => ?_) fun rest _ => reads_handOver harguments hnext hbehind
  have hspan : s.rest.span (!endsName ·) = (name, brackets ++ (suffixes ++ rest)) := by
    obtain ⟨d, tail, hbehindName, hd⟩ := hends rest
    rw [hs, List.append_assoc, List.append_assoc, hbehindName]
    exact span_append_cons (fun e he => by simpa using hname e he) (by simp [hd])
  dsimp only
  rw [hspan, hid]

theorem reads_simpleClass {inner : Option (Scan Bool)} {next : String → Scan Unit}
    {c : SimpleClass} {nested : List SimpleClass} {outer : List Char} {cost : Nat}
    {found : List ClassId}
    (harguments : Reads (NotFrom '<') (typeArguments inner) () (bytes c.brackets) c.brackets
      (argumentsClasses c.arguments))
    (houter : ∀ d ∈ outer, InName d)
    (hnext : Reads Anything
      (suffixesOrEnd (next (String.ofList (outer ++ c.name.chars ++ ['$'])))) () cost
      (suffixesText nested ++ [';']) found) :
    Reads Anything (simpleClass inner next (String.ofList outer)) () (bytes c.brackets + cost)
      (c.text ++ suffixesText nested ++ [';']) (c.classes outer ++ found) := by
  rw [String.ofList_append, String.ofList_append] at hnext
  rw [c.classes_eq, c.text_eq, List.append_assoc, List.append_assoc]
  refine reads_simpleClass_of_ofText? (fun d => c.name.not_endsName) (fun rest => ?_)
    (ofText?_append houter) harguments hnext fun rest => ?_
  · rw [List.append_assoc (suffixesText nested)]
    exact c.brackets_append nested rest
  · obtain ⟨d, tail, h, -, hne⟩ := suffixesText_append nested rest
    simpa [NotFrom, h] using hne

/-- A row of classes is read when its first class and what is behind it are. -/
theorem reads_simpleClasses_succ {inner : Option (Scan Bool)} {c : SimpleClass}
    {nested : List SimpleClass} {outer : List Char} {rounds : Nat} {found : List ClassId}
    (harguments : Reads (NotFrom '<') (typeArguments inner) () (bytes c.brackets) c.brackets
      (argumentsClasses c.arguments))
    (houter : ∀ d ∈ outer, InName d)
    (hnext : Reads Anything (suffixesOrEnd
      (simpleClasses inner rounds (String.ofList (outer ++ c.name.chars ++ ['$'])))) ()
      (bytes (suffixesText nested)) (suffixesText nested ++ [';']) found) :
    Reads Anything (simpleClasses inner (rounds + 1) (String.ofList outer)) ()
      (bytes (c.text ++ suffixesText nested)) (c.text ++ suffixesText nested ++ [';'])
      (c.classes outer ++ found) := by
  have hclass := reads_simpleClass harguments houter hnext
  have h := Reads.andThen (f := fun _ => simpleClass _ _ _) (reads_tick Anything) hclass
  have hname := one_le_bytes c.name.nonempty
  rw [simpleClasses_succ]
  refine Reads.weaken h ?_ fun _ hrest => hrest
  rw [bytes_append, c.text_eq, bytes_append]
  omega

theorem reads_simpleClasses {inner : Option (Scan Bool)} (nested : List SimpleClass)
    (first : SimpleClass) (outer : List Char) (rounds : Nat)
    (harguments : ∀ c ∈ first :: nested, Reads (NotFrom '<') (typeArguments inner) ()
      (bytes c.brackets) c.brackets (argumentsClasses c.arguments))
    (houter : ∀ d ∈ outer, InName d) (hrounds : nested.length < rounds) :
    Reads Anything (simpleClasses inner rounds (String.ofList outer)) ()
      (bytes (first.text ++ suffixesText nested)) (first.text ++ suffixesText nested ++ [';'])
      (first.classes outer ++ suffixesClasses (outer ++ first.name.chars) nested) := by
  induction nested generalizing first outer rounds with
  | nil =>
    obtain ⟨rounds, rfl⟩ := Nat.exists_eq_succ_of_ne_zero (Nat.ne_zero_of_lt hrounds)
    refine reads_simpleClasses_succ (harguments first (by simp)) houter ?_
    exact reads_suffixes (fun _ => rfl) (by simp)
  | cons c nested ih =>
    obtain ⟨rounds, rfl⟩ := Nat.exists_eq_succ_of_ne_zero (Nat.ne_zero_of_lt hrounds)
    have hlonger : ∀ d ∈ outer ++ first.name.chars ++ ['$'], InName d := by
      intro d hd
      rcases List.mem_append.1 hd with hd | hd
      · rcases List.mem_append.1 hd with hd | hd
        · exact houter d hd
        · exact first.name.inName hd
      · rw [List.mem_singleton.1 hd]
        exact ⟨by decide, by decide⟩
    have hrest := ih c (outer ++ first.name.chars ++ ['$']) rounds
      (fun d hd => harguments d (List.mem_cons_of_mem first hd)) hlonger (by simpa using hrounds)
    refine reads_simpleClasses_succ (harguments first (by simp)) houter ?_
    refine reads_suffixes (fun h => by simp at h) ?_
    rintro _ _ ⟨rfl, rfl⟩
    refine hrest.weaken ?_ fun _ h => h
    simp [suffixesText]

/-! ### Types -/

theorem argumentsText_eq (arguments : List TypeArgument) :
    argumentsText arguments = arguments.flatMap TypeArgument.text := by
  induction arguments with
  | nil => rfl
  | cons argument rest ih => rw [argumentsText, ih, List.flatMap_cons]

theorem argumentsClasses_eq (arguments : List TypeArgument) :
    argumentsClasses arguments = arguments.flatMap TypeArgument.classes := by
  induction arguments with
  | nil => rfl
  | cons argument rest ih => rw [argumentsClasses, ih, List.flatMap_cons]

theorem ReferenceType.text_eq_cons (type : ReferenceType) :
    ∃ c tail, type.text = c :: tail ∧ c ∈ ['L', 'T', '['] := by
  cases type with
  | ofClass type =>
    obtain ⟨packages, first, nested⟩ := type
    exact ⟨'L', _, by rw [ReferenceType.text, ClassType.text]; rfl, by decide⟩
  | ofVariable name => exact ⟨'T', _, by rw [ReferenceType.text]; rfl, by decide⟩
  | array element => exact ⟨'[', _, by rw [ReferenceType.text], by decide⟩
  | primitiveArray element => exact ⟨'[', _, by rw [ReferenceType.text], by decide⟩

theorem reads_typeOf_primitive (field : Scan Bool) (p : Primitive) :
    Reads Anything (typeOf field) true 0 [p.letter] [] := by
  unfold typeOf
  apply reads_peek
  dsimp only
  rw [Primitive.ofLetter?_letter, if_pos Option.isSome_some]
  exact Reads.finally (f := fun _ => pure true) (reads_bump _ _) (reads_pure _ true)

theorem reads_typeOf_reference {field : Scan Bool} {type : ReferenceType} {cost : Nat}
    (h : Reads Anything field true cost type.text type.classes) :
    Reads Anything (typeOf field) true cost type.text type.classes := by
  obtain ⟨c, tail, htext, hc⟩ := type.text_eq_cons
  have hprimitive : (Primitive.ofLetter? c).isSome = false := by
    fin_cases hc <;> rfl
  rw [htext] at h ⊢
  unfold typeOf
  apply reads_peek
  dsimp only
  rw [if_neg (by simp [hprimitive])]
  exact h

theorem reads_typeArgument {field : Scan Bool} {type : ReferenceType} {cost : Nat}
    (h : Reads Anything field true cost type.text type.classes) (wildcard : Option Wildcard) :
    Reads Anything (typeArgument field) true cost (TypeArgument.type wildcard type).text
      (TypeArgument.type wildcard type).classes := by
  unfold typeArgument
  cases wildcard with
  | none =>
    obtain ⟨c, tail, htext, hc⟩ := type.text_eq_cons
    rw [TypeArgument.text, TypeArgument.classes]
    rw [htext] at h ⊢
    apply reads_peek
    fin_cases hc <;> exact h
  | some wildcard =>
    rw [TypeArgument.text, TypeArgument.classes]
    apply reads_peek
    have hbump := Reads.andThen (f := fun _ => field >>= fun _ => pure true)
      (reads_bump Anything wildcard.sign) (h.finally (reads_pure _ true))
    rw [Nat.zero_add] at hbump
    cases wildcard <;> exact hbump

theorem skips_typeArgument (inner : Option (Scan Bool)) :
    Reads (From '>') (typeArgument (fieldTypeIn inner)) false 0 [] [] := by
  unfold typeArgument
  apply reads_peek_nil
  intro rest hrest
  rw [show rest.head? = some '>' from hrest]
  refine (skips_fieldTypeIn inner).weaken (Nat.le_refl 0) fun rest hrest => ?_
  simp_all [NotFieldType, NotFrom, From]

theorem reads_typeArguments {levels : Nat} (c : SimpleClass) (hdepth : c.depth ≤ levels)
    (harguments : ∀ fewer, argumentsDepth c.arguments ≤ fewer → ∀ argument ∈ c.arguments,
      Item Anything (typeArgument (fieldTypeIn (below fewer))) argument.text argument.classes) :
    Reads (NotFrom '<') (typeArguments (below levels)) () (bytes c.brackets) c.brackets
      (argumentsClasses c.arguments) := by
  obtain ⟨name, arguments⟩ := c
  cases arguments with
  | nil => exact skips_typeArguments (below levels)
  | cons argument rest =>
    obtain ⟨fewer, rfl⟩ : ∃ fewer, levels = fewer + 1 :=
      Nat.exists_eq_succ_of_ne_zero (by rintro rfl; simp [SimpleClass.depth] at hdepth)
    have hfewer : argumentsDepth (argument :: rest) ≤ fewer := by
      simpa [SimpleClass.depth] using hdepth
    have hrepeated := reads_repeated (skips_typeArgument (below fewer)) (fun _ _ => trivial)
      TypeArgument.text TypeArgument.classes (argument :: rest) (harguments fewer hfewer)
    have hclose := Reads.bind (f := fun _ => expect '>') hrepeated (reads_expect Anything '>')
      fun _ _ => rfl
    rw [← argumentsText_eq, ← argumentsClasses_eq, List.append_nil] at hclose
    unfold typeArguments
    rw [entered_below_succ]
    refine Reads.weaken (reads_after_accept (c := '<') hclose) ?_ fun _ _ => trivial
    simp only [SimpleClass.brackets, List.cons_append, bytes_cons, bytes_append]
    omega

theorem inName_of_mem_packagesText {packages : List Identifier} {d : Char}
    (hd : d ∈ packagesText packages) : InName d := by
  rcases eq_or_mem_of_mem_packagesText hd with rfl | ⟨i, -, hi⟩
  · exact ⟨by decide, by decide⟩
  · exact i.inName hi

theorem item_classType {inner : Option (Scan Bool)} {path : List Identifier}
    {first : SimpleClass} {nested : List SimpleClass}
    (harguments : ∀ c ∈ first :: nested, Reads (NotFrom '<') (typeArguments inner) ()
      (bytes c.brackets) c.brackets (argumentsClasses c.arguments)) :
    Item Anything (classType inner) (ClassType.mk path first nested).text
      (ClassType.mk path first nested).classes where
  nonempty := by simp [ClassType.text]
  starts _ := trivial
  reads := by
    have hbytes : bytes (first.text ++ suffixesText nested) + 2 ≤
        bytes (ClassType.mk path first nested).text := by
      have hL : ('L').utf8Size = 1 := by decide
      have hend : (';').utf8Size = 1 := by decide
      simp only [ClassType.text, List.cons_append, bytes_cons, bytes_append, bytes_nil]
      omega
    have hfrom : ∀ rest, FromName (first.text ++ suffixesText nested ++ [';'] ++ rest) := by
      intro rest
      obtain ⟨d, tail, h, hends⟩ := first.brackets_append nested rest
      refine ⟨first.name, d, tail, ?_, hends⟩
      rw [first.text_eq, ← h]
      simp
    intro s rest hrest hs hsteps
    have hlength := length_le_bytes_suffixesText nested
    rw [bytes_append] at hbytes
    have hclasses := reads_simpleClasses nested first (packagesText path) (maxSteps + 1)
      harguments (fun _ => inName_of_mem_packagesText) (by omega)
    have hpackages := Reads.bind (f := fun outer => do
      simpleClasses inner (maxSteps + 1) outer
      pure true) (reads_packages path) (hclasses.finally (reads_pure _ true))
      fun rest _ => hfrom rest
    have hclass := reads_after_accept (c := 'L') (f := fun b => if !b then pure false else do
      let outer ← packages
      simpleClasses inner (maxSteps + 1) outer
      pure true) hpackages
    refine hclass.weaken (by rw [bytes_append]; omega) (fun _ h => h) s rest hrest ?_ hsteps
    rw [hs, ClassType.text]
    simp

/-- The element of an array stands one level down. -/
theorem item_arrayType {levels cost : Nat} {text : List Char} {found : List ClassId}
    (h : Reads Anything (typeOf (fieldTypeIn (below levels))) true cost text found)
    (hcost : cost ≤ bytes text) :
    Item Anything (fieldTypeIn (below (levels + 1))) ('[' :: text) found where
  nonempty := by simp
  starts _ := trivial
  reads := by
    have harray : Reads Anything (arrayType (below (levels + 1))) true cost ('[' :: text)
        found := by
      unfold arrayType
      refine reads_after_accept ?_
      rw [entered_below_succ, pure_bind]
      exact h.finally (reads_pure _ true)
    have hbracket : ('[').utf8Size = 1 := by decide
    refine (reads_either_right (skips_classType _) (reads_either_left harray) ?_).weaken ?_
      fun _ hrest => hrest
    · simp [NotFrom]
    · rw [bytes_cons]
      omega

mutual

theorem ReferenceType.item : (type : ReferenceType) → ∀ levels, type.depth ≤ levels →
    Item Anything (fieldTypeIn (below levels)) type.text type.classes
  | .ofClass type, levels, hdepth => by
    have h := type.item levels (by rwa [ReferenceType.depth] at hdepth)
    rw [ReferenceType.text, ReferenceType.classes]
    exact { h with reads := reads_either_left h.reads }
  | .ofVariable name, levels, hdepth => by
    rw [ReferenceType.text, ReferenceType.classes]
    refine ⟨?_, by simp, fun _ => trivial⟩
    have harray := reads_either_right (skips_arrayType (below levels)) (reads_typeVariable name)
      (by simp [NotFrom])
    exact (reads_either_right (skips_classType _) harray (by simp [NotFrom])).weaken
      (Nat.zero_le _) fun _ hrest => hrest
  | .array element, 0, hdepth => by simp [ReferenceType.depth] at hdepth
  | .array element, levels + 1, hdepth => by
    have h := element.item levels (by simpa [ReferenceType.depth] using hdepth)
    rw [ReferenceType.text, ReferenceType.classes]
    exact item_arrayType (reads_typeOf_reference h.reads) (Nat.sub_le _ 1)
  | .primitiveArray element, 0, hdepth => by simp [ReferenceType.depth] at hdepth
  | .primitiveArray element, levels + 1, hdepth => by
    rw [ReferenceType.text, ReferenceType.classes]
    exact item_arrayType (reads_typeOf_primitive _ element) (Nat.zero_le _)

theorem ClassType.item : (type : ClassType) → ∀ levels, type.depth ≤ levels →
    Item Anything (classType (below levels)) type.text type.classes
  | .mk path first nested, levels, hdepth => by
    have hdepth : first.depth ≤ levels ∧ suffixesDepth nested ≤ levels := by
      simpa [ClassType.depth] using hdepth
    have hfirst := first.reads_brackets levels hdepth.1
    have hnested := reads_brackets_of_suffixesDepth nested levels hdepth.2
    exact item_classType (List.forall_mem_cons.2 ⟨hfirst, hnested⟩)

theorem SimpleClass.reads_brackets : (c : SimpleClass) → ∀ levels, c.depth ≤ levels →
    Reads (NotFrom '<') (typeArguments (below levels)) () (bytes c.brackets) c.brackets
      (argumentsClasses c.arguments)
  | .mk name arguments, _, hdepth =>
    reads_typeArguments (.mk name arguments) hdepth fun fewer hfewer =>
      items_of_argumentsDepth arguments fewer hfewer

theorem reads_brackets_of_suffixesDepth : (nested : List SimpleClass) → ∀ levels,
    suffixesDepth nested ≤ levels → ∀ c ∈ nested,
    Reads (NotFrom '<') (typeArguments (below levels)) () (bytes c.brackets) c.brackets
      (argumentsClasses c.arguments)
  | [], _, _ => by simp
  | first :: rest, levels, hdepth => by
    have hdepth : first.depth ≤ levels ∧ suffixesDepth rest ≤ levels := by
      simpa [suffixesDepth] using hdepth
    exact List.forall_mem_cons.2
      ⟨first.reads_brackets levels hdepth.1, reads_brackets_of_suffixesDepth rest levels hdepth.2⟩

theorem items_of_argumentsDepth : (arguments : List TypeArgument) → ∀ levels,
    argumentsDepth arguments ≤ levels → ∀ argument ∈ arguments,
    Item Anything (typeArgument (fieldTypeIn (below levels))) argument.text argument.classes
  | [], _, _ => by simp
  | first :: rest, levels, hdepth => by
    have hdepth : first.depth ≤ levels ∧ argumentsDepth rest ≤ levels := by
      simpa [argumentsDepth] using hdepth
    exact List.forall_mem_cons.2
      ⟨first.item levels hdepth.1, items_of_argumentsDepth rest levels hdepth.2⟩

theorem TypeArgument.item : (argument : TypeArgument) → ∀ levels, argument.depth ≤ levels →
    Item Anything (typeArgument (fieldTypeIn (below levels))) argument.text argument.classes
  | .any, _, _ => by
    refine ⟨?_, by simp [TypeArgument.text], fun _ => trivial⟩
    unfold typeArgument
    rw [TypeArgument.text, TypeArgument.classes]
    apply reads_peek
    exact Reads.finally (f := fun _ => pure true) (reads_bump _ '*') (reads_pure _ true)
  | .type wildcard type, levels, hdepth => by
    have h := type.item levels (by rwa [TypeArgument.depth] at hdepth)
    have hbytes : bytes type.text ≤ bytes (TypeArgument.type wildcard type).text := by
      cases wildcard <;> simp [TypeArgument.text]
    refine ⟨(reads_typeArgument h.reads wildcard).weaken (by omega) fun _ hrest => hrest, ?_,
      fun _ => trivial⟩
    cases wildcard <;> simp [TypeArgument.text, h.nonempty]

end

end ClassAtlas.Signature
