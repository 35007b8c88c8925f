import Mathlib.Tactic.FinCases
import ClassAtlas.Proofs.ClassId.WrittenForm

/-!
# Texts that are ids

An id is read from three forms of text: a name, an array of a named class and an array of
primitives. The three share no text, so the form of a text says what the id is that is read
from it. Written again, the id has slashes where the text had dots, and it is read back. So
two ids are the same exactly if their dimensions, their kind and their segments are.
-/

namespace ClassAtlas

namespace ClassName

/-- Segments end at a dot or at a slash. -/
def separates (c : Char) : Bool :=
  c = '.' || c = '/'

theorem slashed_eq_slash {c : Char} : slashed c = '/' ↔ separates c = true := by
  unfold slashed separates
  split <;> simp_all

theorem splitOn_map_slashed (chars : List Char) :
    (chars.map slashed).splitOn '/' = chars.splitOnP separates := by
  induction chars with
  | nil => rfl
  | cons c chars ih =>
    rw [List.map_cons, List.splitOn_cons_eq_if_modifyHead, List.splitOnP_cons_eq_if_modifyHead, ih]
    by_cases hc : separates c = true
    · rw [if_pos hc, if_pos (by simpa using slashed_eq_slash.2 hc)]
    · have hdot : c ≠ '.' := fun h => hc (by simp [separates, h])
      rw [if_neg hc, if_neg (by simpa using mt slashed_eq_slash.1 hc), slashed_eq_self hdot]

theorem segments_ofText (text : String) :
    (ofText text).segments = (text.toList.splitOnP separates).map String.ofList := by
  rw [segments, toList_ofText, splitOn_map_slashed]

theorem eq_of_segments_eq {m n : ClassName} (h : m.segments = n.segments) : m = n := by
  have hsplit : m.text.toList.splitOn '/' = n.text.toList.splitOn '/' :=
    List.map_injective_iff.2 (fun _ _ => String.ofList_injective) h
  apply ext_text
  apply String.toList_inj.1
  have hjoin := congrArg (['/'].intercalate ·) hsplit
  rwa [List.intercalate_splitOn, List.intercalate_splitOn] at hjoin

end ClassName

namespace ClassId

/-- A text that may be an id. -/
inductive Form where
  /-- A name, cut behind its first character. -/
  | plain (first : Char) (rest : List Char)
  /-- One or more brackets, `L`, a name and a semicolon. -/
  | objects (further : Nat) (name : List Char)
  /-- One or more brackets and the letter of a primitive type. -/
  | primitives (further : Nat) (letter : Char)

namespace Form

/-- What the parts of a form must be. A newline is allowed in front of a plain name only. -/
def IsProper : Form → Prop
  | plain first rest => first ≠ '[' ∧ '\n' ∉ rest
  | objects _ name => '\n' ∉ name
  | primitives _ letter => letter ∈ ['Z', 'C', 'S', 'I', 'J', 'B', 'F', 'D']

def text : Form → String
  | plain first rest => String.ofList (first :: rest)
  | objects further name => String.ofList (brackets (further + 1) ++ 'L' :: (name ++ [';']))
  | primitives further letter => String.ofList (brackets (further + 1) ++ [letter])

def dimensions : Form → Nat
  | plain _ _ => 0
  | objects further _ | primitives further _ => further + 1

def isPrimitive : Form → Bool
  | primitives _ _ => true
  | _ => false

def name : Form → List Char
  | plain first rest => first :: rest
  | objects _ name => name
  | primitives _ letter => [letter]

/-- The id has the parts of the form, and is written as the form with slashes for dots. -/
structure Describes (f : Form) (id : ClassId) : Prop where
  dimensions_eq : id.dimensions = f.dimensions
  isPrimitive_eq : id.isPrimitive = f.isPrimitive
  segments_eq : id.segments = (f.name.splitOnP fun c => c = '.' || c = '/').map String.ofList
  text_eq : id.text = f.text.map fun c => if c = '.' then '/' else c
  parse_text : parse id.text = .ok id

end Form

/-! ### Reading a form -/

theorem exists_letter {letter : Char} (h : letter ∈ ['Z', 'C', 'S', 'I', 'J', 'B', 'F', 'D']) :
    ∃ p : Primitive, p.letter = letter ∧ Primitive.ofLetter? letter = some p := by
  fin_cases h
  exacts [⟨.boolean, rfl, rfl⟩, ⟨.char, rfl, rfl⟩, ⟨.short, rfl, rfl⟩, ⟨.int, rfl, rfl⟩,
    ⟨.long, rfl, rfl⟩, ⟨.byte, rfl, rfl⟩, ⟨.float, rfl, rfl⟩, ⟨.double, rfl, rfl⟩]

theorem letter_mem (p : Primitive) : p.letter ∈ ['Z', 'C', 'S', 'I', 'J', 'B', 'F', 'D'] := by
  cases p <;> decide

theorem ofText?_brackets_append {dimensions : Nat} {rest : List Char}
    (h : rest.head? ≠ some '[') : ofText? (String.ofList (brackets dimensions ++ rest)) =
      if dimensions = 0 then plain? rest else arrayBody? dimensions rest := by
  unfold ofText?
  rw [String.toList_ofList, span_brackets_append h]
  cases dimensions <;> simp [brackets]

theorem exists_brackets (chars : List Char) :
    ∃ dimensions rest, rest.head? ≠ some '[' ∧ chars = brackets dimensions ++ rest := by
  induction chars with
  | nil => exact ⟨0, [], by simp, rfl⟩
  | cons c chars ih =>
    by_cases hc : c = '['
    · obtain ⟨dimensions, rest, hrest, rfl⟩ := ih
      exact ⟨dimensions + 1, rest, hrest, by simp [hc, brackets, List.replicate_succ]⟩
    · exact ⟨0, c :: chars, by simpa using hc, rfl⟩

/-- Only the three forms are read. -/
theorem exists_form_of_ofText? {text : String} {id : ClassId} (h : ofText? text = some id) :
    ∃ f : Form, f.IsProper ∧ text = f.text := by
  obtain ⟨dimensions, rest, hrest, hchars⟩ := exists_brackets text.toList
  have htext : text = String.ofList (brackets dimensions ++ rest) := by
    rw [← hchars, String.ofList_toList]
  rw [htext, ofText?_brackets_append hrest] at h
  cases dimensions with
  | zero =>
    rw [if_pos rfl] at h
    unfold plain? at h
    split at h
    · cases h
    · next first rest =>
      split at h
      · cases h
      · next hline => exact ⟨.plain first rest, ⟨by simpa using hrest, hline⟩, htext⟩
  | succ further =>
    rw [if_neg (Nat.succ_ne_zero further)] at h
    unfold arrayBody? at h
    split at h
    · next body =>
      split at h
      · next hbody =>
        have hcut : body.dropLast ++ [';'] = body :=
          List.dropLast_append_getLast? ';' hbody.1
        refine ⟨.objects further body.dropLast, hbody.2, ?_⟩
        rw [htext, Form.text, hcut]
      · cases h
    · next letter _ =>
      obtain ⟨p, hp, -⟩ := Option.map_eq_some_iff.1 h
      exact ⟨.primitives further letter, Primitive.letter_of_ofLetter? hp ▸ letter_mem p, htext⟩
    · cases h

inductive Form.Means : Form → ClassId → Prop
  | plain (first : Char) (rest : List Char) :
      Means (.plain first rest) (ofName (.ofText (String.ofList (first :: rest))))
  | objects (further : Nat) (name : List Char) :
      Means (.objects further name) (object (further + 1) (.ofText (String.ofList name)))
  | primitives (further : Nat) (p : Primitive) :
      Means (.primitives further p.letter) (primitive further p)

theorem Form.IsProper.exists_means {f : Form} (h : f.IsProper) :
    ∃ id, f.Means id ∧ parse f.text = .ok id := by
  cases f with
  | plain first rest =>
    have hhead : (first :: rest).head? ≠ some '[' := by simpa using h.1
    refine ⟨_, .plain first rest, parse_eq_ok.2 ?_⟩
    have hread : ofText? (String.ofList (first :: rest)) = plain? (first :: rest) :=
      @ofText?_brackets_append 0 _ hhead
    rw [Form.text, hread, plain?, if_neg h.2]
  | objects further name =>
    have hline : '\n' ∉ name := h
    refine ⟨_, .objects further name, parse_eq_ok.2 ?_⟩
    rw [Form.text, ofText?_brackets_append (by simp), if_neg (Nat.succ_ne_zero further)]
    simp [arrayBody?, hline]
  | primitives further letter =>
    obtain ⟨p, rfl, hp⟩ := exists_letter h
    refine ⟨_, .primitives further p, parse_eq_ok.2 ?_⟩
    rw [Form.text, ofText?_brackets_append (by simpa using p.letter_ne.1),
      if_neg (Nat.succ_ne_zero further)]
    cases p <;> rfl

/-! ### What is read -/

theorem map_slashed_of_means {f : Form} {id : ClassId} (h : f.Means id) :
    id.text = f.text.map ClassName.slashed := by
  have hbrackets (n : Nat) : (brackets n).map ClassName.slashed = brackets n := by
    simp [brackets, ClassName.slashed]
  apply String.toList_inj.1
  rw [toList_text, String.toList_map]
  cases h with
  | plain first rest => simp [dimensions, body, Form.text, brackets]
  | objects further name =>
    have hends : ClassName.slashed 'L' = 'L' ∧ ClassName.slashed ';' = ';' := by decide
    simp [dimensions, body, Form.text, hbrackets, hends]
  | primitives further p =>
    have hletter : ClassName.slashed p.letter = p.letter := by cases p <;> rfl
    simp [dimensions, body, Form.text, hbrackets, hletter]

theorem segments_of_means {f : Form} {id : ClassId} (h : f.Means id) :
    id.segments = (f.name.splitOnP ClassName.separates).map String.ofList := by
  cases h with
  | plain first rest =>
    change (ClassName.ofText _).segments = _
    rw [ClassName.segments_ofText, String.toList_ofList, Form.name]
  | objects further name =>
    change (ClassName.ofText _).segments = _
    rw [ClassName.segments_ofText, String.toList_ofList, Form.name]
  | primitives further p => cases p <;> rfl

theorem parse_text_of_means {f : Form} (h : f.IsProper) {id : ClassId} (hid : f.Means id) :
    parse id.text = .ok id := by
  cases hid with
  | plain first rest =>
    have hline : (ClassName.ofText (String.ofList (first :: rest))).IsLine :=
      ClassName.isLine_ofText (by simpa using h.2)
    have hfront : ClassName.slashed first ≠ '[' := by
      unfold ClassName.slashed
      split
      · decide
      · exact h.1
    refine parse_text_of_isReadable (fun n hn => Option.some.inj hn ▸ hline) ?_
    exact ⟨by simp, by simpa using hfront⟩
  | objects further name =>
    have hline : '\n' ∉ (ClassName.ofText (String.ofList name)).text.toList := by
      rw [ClassName.toList_ofText, String.toList_ofList, ClassName.newline_mem_map_slashed]
      exact h
    refine parse_text_of_isReadable (fun n hn => ?_) ?_
    · rw [← Option.some.inj hn]
      exact fun hmem => hline (List.mem_of_mem_tail hmem)
    · exact fun hfront => hline (List.mem_of_mem_head? hfront)
  | primitives further p =>
    exact parse_text_of_isReadable (fun n hn => by cases hn) trivial

theorem describes_of_means {f : Form} (h : f.IsProper) {id : ClassId} (hid : f.Means id) :
    f.Describes id where
  dimensions_eq := by cases hid <;> rfl
  isPrimitive_eq := by cases hid <;> rfl
  segments_eq := segments_of_means hid
  text_eq := map_slashed_of_means hid
  parse_text := parse_text_of_means h hid

theorem Form.IsProper.describes {f : Form} (h : f.IsProper) {id : ClassId}
    (hid : parse f.text = .ok id) : f.Describes id := by
  obtain ⟨other, hother, hparse⟩ := h.exists_means
  obtain rfl : other = id := Except.ok.inj (hparse.symm.trans hid)
  exact describes_of_means h hother

/-- An id is made of its dimensions, its kind and its segments. -/
theorem eq_of_parts_eq {a b : ClassId} (hdimensions : a.dimensions = b.dimensions)
    (hprimitive : a.isPrimitive = b.isPrimitive) (hsegments : a.segments = b.segments) : a = b := by
  match a, b with
  | object d m, object e n =>
    have hname : m = n := ClassName.eq_of_segments_eq hsegments
    have hd : d = e := hdimensions
    rw [hname, hd]
  | primitive d p, primitive e q =>
    have hletter : p = q := by
      apply Primitive.letter_injective
      simpa [segments] using hsegments
    have hd : d = e := Nat.succ.inj hdimensions
    rw [hletter, hd]
  | object d m, primitive e q => cases hprimitive
  | primitive d p, object e n => cases hprimitive

theorem eq_of_beq_of_parse {text other : String} {a b : ClassId} (ha : parse text = .ok a)
    (hb : parse other = .ok b) (h : (a == b) = true) : a = b := by
  have htext : a.text = b.text := beq_iff_text_eq.1 h
  obtain ⟨f, hf, rfl⟩ := exists_form_of_ofText? (parse_eq_ok.1 ha)
  obtain ⟨g, hg, rfl⟩ := exists_form_of_ofText? (parse_eq_ok.1 hb)
  have hread := (hf.describes ha).parse_text
  rw [htext, (hg.describes hb).parse_text] at hread
  exact (Except.ok.inj hread).symm

theorem exists_parse_iff {text : String} :
    (∃ id, parse text = .ok id) ↔ ∃ f : Form, f.IsProper ∧ text = f.text := by
  constructor
  · rintro ⟨id, hid⟩
    exact exists_form_of_ofText? (parse_eq_ok.1 hid)
  · rintro ⟨f, hf, rfl⟩
    obtain ⟨id, -, hid⟩ := hf.exists_means
    exact ⟨id, hid⟩

theorem parse_eq_error_of_not_exists {text : String} (h : ¬ ∃ id, parse text = .ok id) :
    parse text = .error (.format (.notAClassName text)) := by
  unfold parse at h ⊢
  cases hread : ofText? text with
  | some id => exact absurd ⟨id, by rw [hread]⟩ h
  | none => rfl

/-- Ids are read from the three forms. Any other text is refused by name. What is read says what
its form says, and is written and read back as it is. Two ids that were read are equal exactly if
their dimensions, their kinds and their segments are. -/
theorem parse_reads_forms :
    (∀ text, (∃ id, parse text = .ok id) ↔ ∃ f : Form, f.IsProper ∧ text = f.text) ∧
      (∀ text, (¬ ∃ f : Form, f.IsProper ∧ text = f.text) →
        parse text = .error (.format (.notAClassName text))) ∧
      (∀ f : Form, f.IsProper → ∃ id, parse f.text = .ok id ∧ f.Describes id) ∧
      ∀ text other a b, parse text = .ok a → parse other = .ok b →
        ((a == b) = true ↔ a.dimensions = b.dimensions ∧ a.isPrimitive = b.isPrimitive ∧
          a.segments = b.segments) := by
  refine ⟨fun text => exists_parse_iff, fun text hno => ?_, fun f hf => ?_,
    fun text other a b ha hb => ⟨fun h => ?_, ?_⟩⟩
  · exact parse_eq_error_of_not_exists (mt exists_parse_iff.1 hno)
  · obtain ⟨id, hmeans, hid⟩ := hf.exists_means
    exact ⟨id, hid, describes_of_means hf hmeans⟩
  · obtain rfl := eq_of_beq_of_parse ha hb h
    exact ⟨rfl, rfl, rfl⟩
  · rintro ⟨hdimensions, hprimitive, hsegments⟩
    obtain rfl := eq_of_parts_eq hdimensions hprimitive hsegments
    exact beq_iff_text_eq.2 rfl

/-- The arrays `[[La.b/C;` and `[[La/b.C;` are read as one id. -/
theorem parse_reads_forms_array : ∃ a b, parse "[[La.b/C;" = .ok a ∧ parse "[[La/b.C;" = .ok b ∧
    (a == b) = true ∧ a.text = "[[La/b/C;" ∧ a.segments = ["a", "b", "C"] := by
  obtain ⟨-, -, hforms, hequal⟩ := parse_reads_forms
  have hline : '\n' ∉ ['a', '.', 'b', '/', 'C'] ∧ '\n' ∉ ['a', '/', 'b', '.', 'C'] := by decide
  obtain ⟨a, ha, hfirst⟩ := hforms (.objects 1 ['a', '.', 'b', '/', 'C']) hline.1
  obtain ⟨b, hb, hother⟩ := hforms (.objects 1 ['a', '/', 'b', '.', 'C']) hline.2
  have hsegments : a.segments = ["a", "b", "C"] := hfirst.segments_eq
  have hsame : b.segments = ["a", "b", "C"] := hother.segments_eq
  refine ⟨a, b, ha, hb, (hequal _ _ a b ha hb).2 ⟨?_, ?_, ?_⟩, hfirst.text_eq.trans ?_, hsegments⟩
  · rw [hfirst.dimensions_eq, hother.dimensions_eq]
    rfl
  · rw [hfirst.isPrimitive_eq, hother.isPrimitive_eq]
    rfl
  · rw [hsegments, hsame]
  · decide +kernel

end ClassId

end ClassAtlas
