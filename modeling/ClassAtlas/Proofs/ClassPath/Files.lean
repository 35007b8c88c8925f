import ClassAtlas.ClassPath
import ClassAtlas.Proofs.FileTree.Walks

/-!
# The files of classes

The path of a class below a root is the root, opened by a slash where it needs one, then the
packages of the class, each with a slash behind it, and the last segment with the suffix. An
empty package adds nothing to a path. So two classes share their files below every root, or
below none, and they do when their names are the same without the gaps that empty packages
leave in them.
-/

namespace ClassAtlas

theorem FileKind.slash_notMem_suffix (kind : FileKind) : '/' ∉ kind.suffix.toList := by
  cases kind <;> decide

theorem ClassId.exists_of_pathBelow? {id : ClassId} {kind : FileKind} {root path : String}
    (h : id.pathBelow? kind root = some path) :
    ∃ n, id = .ofName n ∧ path = n.pathBelow kind root := by
  match id with
  | .object 0 n => exact ⟨n, rfl, (Option.some.inj h).symm⟩

namespace ClassName

variable (n : ClassName)

/-- The segments before the last, empty ones included. -/
def packages : List String :=
  n.segments.dropLast

/-- The segment that names the class in its package. -/
def lastSegment : String :=
  n.segments.getLastD ""

theorem segments_eq_stepsOf : n.segments = FileTree.stepsOf n.text := rfl

theorem sum_count_dot_segments :
    (n.segments.map fun segment => segment.toList.count '.').sum = 0 := by
  rw [segments_eq_stepsOf, ← Path.count_intercalate (by decide), FileTree.intercalate_stepsOf]
  exact List.count_eq_zero.2 n.dotless

theorem packages_append_lastSegment : n.packages ++ [n.lastSegment] = n.segments := by
  have hne := FileTree.stepsOf_ne_nil n.text
  rw [← segments_eq_stepsOf] at hne
  rw [packages, lastSegment, List.getLastD_eq_getLast?, List.getLast?_eq_some_getLast hne,
    Option.getD_some, List.dropLast_append_getLast]

theorem slash_notMem_packages : ∀ package ∈ n.packages, '/' ∉ package.toList := by
  intro package h
  exact FileTree.slash_notMem_of_mem_stepsOf (List.dropLast_subset _ h)

theorem slash_notMem_lastSegment : '/' ∉ n.lastSegment.toList := by
  have hlast : n.lastSegment ∈ n.segments := by
    rw [← packages_append_lastSegment]
    simp
  exact FileTree.slash_notMem_of_mem_stepsOf hlast

theorem slash_notMem_fileName (kind : FileKind) :
    '/' ∉ (n.lastSegment ++ kind.suffix).toList := by
  rw [String.toList_append, List.mem_append, not_or]
  exact ⟨n.slash_notMem_lastSegment, kind.slash_notMem_suffix⟩

def withoutGaps : String :=
  Path.opening n.packages ++ n.lastSegment

theorem pathBelow_eq_foldl (kind : FileKind) (root : String) :
    n.pathBelow kind root =
      (n.packages ++ [n.lastSegment ++ kind.suffix]).foldl Path.push root := by
  rw [List.foldl_append]
  rfl

/-- The path below a root is made of the root, the name without gaps and the suffix. -/
theorem pathBelow_eq (kind : FileKind) (root : String) :
    n.pathBelow kind root = Path.opened root ++ n.withoutGaps ++ kind.suffix := by
  rw [pathBelow_eq_foldl, List.foldl_append, List.foldl_cons, List.foldl_nil,
    Path.push_eq (n.slash_notMem_fileName kind), Path.opened_foldl_push n.slash_notMem_packages,
    withoutGaps]
  simp only [String.append_assoc]

theorem stepsOf_withoutGaps :
    FileTree.stepsOf n.withoutGaps = n.packages.filter (· ≠ "") ++ [n.lastSegment] := by
  rw [withoutGaps, Path.stepsOf_opening_append n.slash_notMem_packages,
    FileTree.stepsOf_eq_singleton n.slash_notMem_lastSegment]

variable {n} {m : ClassName}

/-- Names that are alike without their gaps have the same packages, empty ones apart, and the
same last segment. -/
theorem withoutGaps_inj : n.withoutGaps = m.withoutGaps ↔
    n.packages.filter (· ≠ "") = m.packages.filter (· ≠ "") ∧ n.lastSegment = m.lastSegment := by
  constructor
  · intro h
    have hsteps := congrArg FileTree.stepsOf h
    rw [stepsOf_withoutGaps, stepsOf_withoutGaps] at hsteps
    obtain ⟨hpackages, hlast⟩ := List.append_inj' hsteps rfl
    exact ⟨hpackages, List.singleton_inj.1 hlast⟩
  · rintro ⟨hpackages, hlast⟩
    rw [withoutGaps, withoutGaps, Path.opening, Path.opening, hpackages, hlast]

/-- Two classes share their files below every root or below none. -/
theorem pathBelow_inj {kind : FileKind} {root : String} :
    n.pathBelow kind root = m.pathBelow kind root ↔ n.withoutGaps = m.withoutGaps := by
  rw [pathBelow_eq, pathBelow_eq, String.append_left_inj, String.append_right_inj]

theorem opening_append_eq {packages : List String} (h : "" ∉ packages) (last : String) :
    Path.opening packages ++ last = "/".intercalate (packages ++ [last]) := by
  induction packages with
  | nil => simp
  | cons package rest ih =>
    rw [List.mem_cons, not_or] at h
    rw [Path.opening_cons (Ne.symm h.1), String.append_assoc, ih h.2, List.cons_append,
      String.intercalate_cons_of_ne_nil (by simp)]

theorem withoutGaps_eq_text (h : "" ∉ n.packages) : n.withoutGaps = n.text := by
  rw [withoutGaps, opening_append_eq h, packages_append_lastSegment, segments_eq_stepsOf,
    FileTree.intercalate_stepsOf]

end ClassName

end ClassAtlas
