import Mathlib.Logic.Function.Basic
import ClassAtlas.Text.Quoted

/-!
# Reading quoted texts

Between the quotes every quote has a backslash in front of it, and every backslash has one more
character behind it that tells what both stand for. So a quoted text can be read back, and
different texts are quoted differently.
-/

namespace ClassAtlas.Text.Quoted

/-- The control characters that are not written as themselves. -/
def controls : List Char :=
  ['\n', '\t', '\r', '\x08']

/-- The characters that stand behind a backslash. -/
def marks : List Char :=
  ['\\', '"', 'n', 't', 'r', 'b']

/-- What a backslash with a mark behind it stands for. -/
def meaning (mark : Char) : Char :=
  match mark with
  | 'n' => '\n'
  | 't' => '\t'
  | 'r' => '\r'
  | 'b' => '\x08'
  | c => c

/-- What may stand between the quotes. -/
inductive IsEscaped : List Char → Prop
  | nil : IsEscaped []
  | bare (c : Char) (hquote : c ≠ '"') (hbackslash : c ≠ '\\') (hcontrol : c ∉ controls)
      {rest : List Char} (h : IsEscaped rest) : IsEscaped (c :: rest)
  | pair (mark : Char) (hmark : mark ∈ marks) {rest : List Char} (h : IsEscaped rest) :
      IsEscaped ('\\' :: mark :: rest)

theorem IsEscaped.notMem_of_mem_controls {body : List Char} (h : IsEscaped body) {c : Char}
    (hc : c ∈ controls) : c ∉ body := by
  induction h with
  | nil => exact List.not_mem_nil
  | bare d _ _ hcontrol _ ih =>
    rw [List.mem_cons, not_or]
    exact ⟨fun heq => hcontrol (heq ▸ hc), ih⟩
  | pair mark hmark _ ih =>
    have hdisjoint : ∀ c ∈ controls, c ≠ '\\' ∧ c ∉ marks := by simp [controls, marks]
    obtain ⟨hbackslash, hmarks⟩ := hdisjoint c hc
    rw [List.mem_cons, List.mem_cons, not_or, not_or]
    exact ⟨hbackslash, fun heq => hmarks (heq ▸ hmark), ih⟩

def unescape : List Char → List Char
  | '\\' :: mark :: rest => meaning mark :: unescape rest
  | c :: rest => c :: unescape rest
  | [] => []

theorem escape_cases (c : Char) :
    (escape c = [c] ∧ c ≠ '"' ∧ c ≠ '\\' ∧ c ∉ controls) ∨
      ∃ mark ∈ marks, escape c = ['\\', mark] ∧ meaning mark = c := by
  unfold escape
  split
  · exact .inr ⟨'\\', by decide, rfl, rfl⟩
  · exact .inr ⟨'n', by decide, rfl, rfl⟩
  · exact .inr ⟨'t', by decide, rfl, rfl⟩
  · exact .inr ⟨'r', by decide, rfl, rfl⟩
  · exact .inr ⟨'b', by decide, rfl, rfl⟩
  · exact .inr ⟨'"', by decide, rfl, rfl⟩
  · exact .inl ⟨rfl, by simp_all [controls]⟩

theorem isEscaped_flatMap_escape (text : List Char) : IsEscaped (text.flatMap escape) := by
  induction text with
  | nil => exact .nil
  | cons c text ih =>
    rw [List.flatMap_cons]
    rcases escape_cases c with ⟨heq, hquote, hbackslash, hcontrol⟩ | ⟨mark, hmark, heq, -⟩
    · rw [heq]
      exact .bare c hquote hbackslash hcontrol ih
    · rw [heq]
      exact .pair mark hmark ih

theorem unescape_flatMap_escape (text : List Char) : unescape (text.flatMap escape) = text := by
  induction text with
  | nil => rfl
  | cons c text ih =>
    rw [List.flatMap_cons]
    rcases escape_cases c with ⟨heq, -, hbackslash, -⟩ | ⟨mark, -, heq, hmeaning⟩
    · rw [heq, List.singleton_append, unescape.eq_2 _ _ (by simp [hbackslash]), ih]
    · rw [heq]
      change meaning mark :: unescape (text.flatMap escape) = c :: text
      rw [hmeaning, ih]

theorem toList_quote (text : String) :
    (quote text).toList = '"' :: text.toList.flatMap escape ++ ['"'] :=
  String.toList_ofList

theorem quote_injective : Function.Injective quote := by
  intro text other h
  have hbody : text.toList.flatMap escape = other.toList.flatMap escape := by
    rw [← String.toList_inj, toList_quote, toList_quote] at h
    exact List.append_cancel_right (List.cons.inj h).2
  rw [← String.toList_inj, ← unescape_flatMap_escape text.toList, hbody, unescape_flatMap_escape]

theorem notMem_toList_quote {c : Char} (hc : c ∈ controls) (text : String) :
    c ∉ (quote text).toList := by
  have hne : ∀ c ∈ controls, c ≠ '"' := by simp [controls]
  have hbody := (isEscaped_flatMap_escape text.toList).notMem_of_mem_controls hc
  rw [toList_quote, List.mem_append, List.mem_cons, List.mem_singleton]
  simp only [hne c hc, hbody, or_self, not_false_eq_true]

end ClassAtlas.Text.Quoted
