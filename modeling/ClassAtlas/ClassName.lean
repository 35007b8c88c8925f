import Std.Data.TreeSet

/-!
# Names of classes

The name of a class or interface that is no array, with slashes between its segments.
The segments before the last are its package. A dollar sign in the last segment marks
a class nested in another; digits behind the last dollar sign mark an anonymous one.
Names are ordered by their text, code point by code point.
-/

namespace ClassAtlas

/-- A class name, in which slashes are the only separators. -/
structure ClassName where
  text : String
  dotless : '.' ∉ text.toList
deriving DecidableEq

namespace ClassName

/-- Dots separate segments as slashes do. -/
def slashed (c : Char) : Char :=
  if c = '.' then '/' else c

theorem slashed_eq_self {c : Char} (h : c ≠ '.') : slashed c = c := by
  simp [slashed, h]

/-- The name written in a text, with dots or slashes between the segments. -/
def ofText (text : String) : ClassName where
  text := text.map slashed
  dotless := by
    simp only [String.toList_map, List.mem_map, slashed]
    rintro ⟨c, -, hc⟩
    split at hc
    · exact absurd hc (by decide)
    · contradiction

instance : Ord ClassName := ⟨compareOn text⟩

instance : Std.TransOrd ClassName :=
  inferInstanceAs (Std.TransCmp (compareOn text))

theorem ext_text {a b : ClassName} (h : a.text = b.text) : a = b := by
  cases a; cases b; simp_all

instance : Std.LawfulEqOrd ClassName where
  eq_of_compare h := ext_text (Std.LawfulEqOrd.eq_of_compare h)

@[simp] theorem ofText_text (n : ClassName) : ofText n.text = n := by
  apply ext_text
  apply String.toList_inj.1
  simp only [ofText, String.toList_map]
  exact (List.map_congr_left fun c hc => slashed_eq_self fun h => n.dotless (h ▸ hc)).trans
    (List.map_id' _)

/-- The pieces between the slashes, never none. -/
def segments (n : ClassName) : List String :=
  (n.text.toList.splitOn '/').map String.ofList

def leaf (n : ClassName) : List Char :=
  (n.text.toList.reverse.takeWhile (· != '/')).reverse

/-- Everything up to and including the last slash. -/
def directory (n : ClassName) : List Char :=
  (n.text.toList.reverse.dropWhile (· != '/')).reverse

@[simp] theorem directory_append_leaf (n : ClassName) : n.directory ++ n.leaf = n.text.toList := by
  simp [directory, leaf, ← List.reverse_append]

theorem slash_notMem_leaf (n : ClassName) : '/' ∉ n.leaf := by
  intro h
  have all := List.all_takeWhile (p := (· != '/')) (l := n.text.toList.reverse)
  rw [List.all_eq_true] at all
  simpa using all _ (List.mem_reverse.1 h)

/-- Whether a dollar sign and at least one digit end the name. -/
def isAnonymous (n : ClassName) : Bool :=
  let (digits, before) := n.leaf.reverse.span Char.isDigit
  !digits.isEmpty && before.head? == some '$'

theorem dotless_topLevel (n : ClassName) :
    '.' ∉ n.directory ++ n.leaf.takeWhile (· != '$') := by
  intro h
  apply n.dotless
  rcases List.mem_append.1 h with h | h
  · exact List.mem_reverse.1 ((List.dropWhile_sublist _).mem (List.mem_reverse.1 h))
  · exact List.mem_reverse.1 ((List.takeWhile_sublist _).mem
      (List.mem_reverse.1 ((List.takeWhile_sublist _).mem h)))

/-- The class whose source file holds this one: its last segment ends before the
first dollar sign. -/
def topLevel (n : ClassName) : ClassName where
  text := String.ofList (n.directory ++ n.leaf.takeWhile (· != '$'))
  dotless := by simpa using n.dotless_topLevel

/-- The segments before the last with dots between them, if there are any. -/
def package? (n : ClassName) : Option String :=
  match n.segments.dropLast with
  | [] => none
  | packages => some (".".intercalate packages)

end ClassName

/-- A set of class names, listed by text. -/
abbrev NameSet := Std.TreeSet ClassName

end ClassAtlas
