import Mathlib.Data.List.Basic
import ClassAtlas.Proofs.Text.Quoted

/-!
# Lines of a text

Lines that are written with a newline behind each come back when the text is split at its
newlines, provided that each of them is one line: a line with newlines of its own comes back
in pieces. A text that is put together from others is one line exactly if these are, and a
quoted text always is.
-/

namespace ClassAtlas

theorem notMem_of_mem_splitOn {α : Type} [BEq α] [LawfulBEq α] {a : α} {list part : List α}
    (h : part ∈ list.splitOn a) : a ∉ part := by
  induction list generalizing part with
  | nil =>
    rw [List.splitOn_nil, List.mem_singleton] at h
    simp [h]
  | cons first rest ih =>
    rw [List.splitOn_cons_eq_if_modifyHead] at h
    split at h
    · rcases List.mem_cons.1 h with rfl | h
      · simp
      · exact ih h
    · next hne =>
      obtain ⟨head, tail, hsplit⟩ := List.exists_cons_of_ne_nil (List.splitOn_ne_nil a rest)
      rw [hsplit] at h ih
      rcases List.mem_cons.1 h with rfl | h
      · have hfirst : a ≠ first := fun heq => hne (by simp [heq])
        simp [hfirst, ih List.mem_cons_self]
      · exact ih (List.mem_cons_of_mem _ h)

namespace Text

def IsOneLine (text : String) : Prop :=
  '\n' ∉ text.toList

instance (text : String) : Decidable (IsOneLine text) :=
  inferInstanceAs (Decidable (¬ _))

/-- The lines of a text in which a newline stands behind each line. -/
def linesOf (text : String) : List String :=
  (text.toList.splitOn '\n').dropLast.map String.ofList

def pieces (text : String) : List String :=
  (text.toList.splitOn '\n').map String.ofList

variable {text other : String} {texts lines : List String}

theorem isOneLine_of_mem_pieces (h : text ∈ pieces other) : IsOneLine text := by
  obtain ⟨chars, hchars, rfl⟩ := List.mem_map.1 h
  rw [IsOneLine, String.toList_ofList]
  exact notMem_of_mem_splitOn hchars

theorem pieces_of_isOneLine (h : IsOneLine text) : pieces text = [text] := by
  rw [pieces, List.splitOn_eq_singleton h]
  simp

/-- Lines that are written one behind the other come back in their pieces. -/
theorem linesOf_join (lines : List String) :
    linesOf (String.join (lines.map (· ++ "\n"))) = lines.flatMap pieces := by
  have hnewline : ("\n" : String).toList = ['\n'] := rfl
  induction lines with
  | nil => rfl
  | cons line lines ih =>
    rw [List.flatMap_cons, ← ih]
    unfold linesOf pieces
    rw [List.map_cons, String.join_cons, String.toList_append, String.toList_append, hnewline,
      List.append_assoc, List.singleton_append, List.splitOn_append_cons_self,
      List.dropLast_append_of_ne_nil (List.splitOn_ne_nil _ _), List.map_append]

/-- Lines that are written one behind the other come back exactly if each is one line. -/
theorem linesOf_join_eq_self_iff :
    linesOf (String.join (lines.map (· ++ "\n"))) = lines ↔ ∀ line ∈ lines, IsOneLine line := by
  rw [linesOf_join]
  constructor
  · intro h line hline
    rw [← h] at hline
    obtain ⟨whole, -, hpiece⟩ := List.mem_flatMap.1 hline
    exact isOneLine_of_mem_pieces hpiece
  · intro h
    have hpieces : lines.flatMap pieces = lines.flatMap fun line => [line] :=
      List.flatMap_congr fun line hline => pieces_of_isOneLine (h line hline)
    rw [hpieces, List.flatMap_singleton']

/-! ### Texts made of texts -/

@[simp] theorem isOneLine_append : IsOneLine (text ++ other) ↔ IsOneLine text ∧ IsOneLine other := by
  simp [IsOneLine, not_or]

@[simp] theorem isOneLine_ofList {chars : List Char} :
    IsOneLine (String.ofList chars) ↔ '\n' ∉ chars := by
  rw [IsOneLine, String.toList_ofList]

theorem isOneLine_join : IsOneLine (String.join texts) ↔ ∀ text ∈ texts, IsOneLine text := by
  induction texts with
  | nil => simp [IsOneLine]
  | cons text texts ih => rw [String.join_cons, isOneLine_append, ih, List.forall_mem_cons]

theorem isOneLine_intercalate {between : String} (hbetween : IsOneLine between) :
    IsOneLine (between.intercalate texts) ↔ ∀ text ∈ texts, IsOneLine text := by
  induction texts with
  | nil => simp [IsOneLine]
  | cons text texts ih =>
    by_cases hnil : texts = []
    · simp [hnil]
    · rw [String.intercalate_cons_of_ne_nil hnil, isOneLine_append, isOneLine_append, ih,
        List.forall_mem_cons]
      simp [hbetween]

theorem isOneLine_quote (text : String) : IsOneLine (Quoted.quote text) :=
  Quoted.notMem_toList_quote (by simp [Quoted.controls]) text

end Text

end ClassAtlas
