import ClassAtlas.Proofs.ClassPath.Files

/-!
# Files stay below their root

The file of a class is made of the components of the root, then of its packages that are not
empty and of the last segment with the suffix, each of which is a name: no dot is left in a
segment, so none of them leads back up. A path is absolute only if its root is, since no step
that is added starts with a slash.
-/

namespace ClassAtlas

/-! ### Components of longer paths -/

namespace Path

/-- A path that starts at the root of the file tree. -/
def IsAbsolute (path : String) : Prop :=
  path.toList.head? = some '/'

def namesOf (rest : List Char) : List Component :=
  (rest.splitOn '/').filterMap component?

@[simp] theorem namesOf_nil : namesOf [] = [] := rfl

theorem namesOf_append_slash (front rest : List Char) :
    namesOf (front ++ '/' :: rest) = namesOf front ++ namesOf rest := by
  rw [namesOf, List.splitOn_append_cons_self, List.filterMap_append]
  rfl

theorem components_eq (path : String) :
    components path = frontComponents (splitFront path.toList).1 ++
      namesOf (splitFront path.toList).2 :=
  rfl

/-- The front of a path stays as it is when the path goes on behind a slash. -/
theorem splitFront_append_slash {front : List Char} (h : front ≠ []) (rest : List Char) :
    splitFront (front ++ '/' :: rest) =
      ((splitFront front).1, (splitFront front).2 ++ '/' :: rest) := by
  fun_cases splitFront front with
  | case1 | case2 | case3 => rfl
  | case4 front hslash hhere hdot =>
    obtain ⟨c, tail, rfl⟩ := List.exists_cons_of_ne_nil h
    refine splitFront.eq_4 _ ?_ ?_ ?_
    · intro behind heq
      exact hslash tail (by rw [(List.cons.inj heq).1])
    · simp
    · intro behind heq
      obtain ⟨rfl, htail⟩ := List.cons.inj heq
      cases tail with
      | nil => exact hhere rfl
      | cons d tail => exact hdot tail (by rw [(List.cons.inj htail).1])

theorem components_append_slash {path : String} (h : path ≠ "") (more : String) :
    components (path ++ "/" ++ more) = components path ++ namesOf more.toList := by
  have hchars : path.toList ≠ [] := by simpa using h
  have hsplit : (path ++ "/" ++ more).toList = path.toList ++ '/' :: more.toList := by simp
  rw [components_eq, components_eq, hsplit, splitFront_append_slash hchars, namesOf_append_slash,
    List.append_assoc]

theorem components_of_splitFront {path : String} (h : splitFront path.toList = ([], path.toList)) :
    components path = namesOf path.toList := by
  rw [components_eq, h]
  rfl

/-- A path that goes on from a root has the components of the root, and then its own. -/
theorem components_opened_append (root : String) {more : String}
    (h : splitFront more.toList = ([], more.toList)) :
    components (opened root ++ more) = components root ++ namesOf more.toList := by
  by_cases hroot : root = ""
  · subst hroot
    rw [opened_empty, String.empty_append, components_of_splitFront h]
    rfl
  by_cases hslash : needsSlash root = true
  · rw [opened, if_pos hslash, components_append_slash hroot]
  obtain ⟨front, rfl⟩ := exists_eq_append_slash hroot hslash
  rw [opened, if_neg hslash]
  by_cases hfront : front = ""
  · subst hfront
    have hsplit : ("" ++ "/" ++ more).toList = '/' :: more.toList := by simp
    rw [components_eq, hsplit]
    rfl
  · have hclosed := components_append_slash hfront ""
    rw [String.append_empty] at hclosed
    rw [components_append_slash hfront, hclosed]
    simp

theorem isAbsolute_opened_append {root more : String} (h : more.toList.head? ≠ some '/') :
    IsAbsolute (opened root ++ more) ↔ IsAbsolute root := by
  by_cases hroot : root = ""
  · subst hroot
    simp [IsAbsolute, h]
  · have hchars : root.toList ≠ [] := by simpa using hroot
    obtain ⟨c, tail, hc⟩ := List.exists_cons_of_ne_nil hchars
    unfold IsAbsolute opened
    split <;> simp [hc]

/-- A step that leads to what has its name, and neither up nor to the root of the file tree. -/
structure LeadsDown (step : String) : Prop where
  ne_empty : step ≠ ""
  ne_here : step ≠ "."
  ne_up : step ≠ ".."
  slash_notMem : '/' ∉ step.toList

theorem LeadsDown.component? {step : String} (h : LeadsDown step) :
    component? step.toList = some (.name step) := by
  have hempty : step.toList ≠ [] := by simpa using h.ne_empty
  have hhere : step.toList ≠ ['.'] := fun heq => h.ne_here (String.toList_inj.1 heq)
  have hup : step.toList ≠ ['.', '.'] := fun heq => h.ne_up (String.toList_inj.1 heq)
  simp [Path.component?, isIdle, hempty, hhere, hup]

/-- Steps that all lead down stand behind no front. -/
theorem splitFront_of_leadsDown {more : String}
    (h : ∀ step ∈ FileTree.stepsOf more, LeadsDown step) :
    splitFront more.toList = ([], more.toList) := by
  have hfirst (first rest : List Char) (hslash : '/' ∉ first)
      (hmore : more.toList = first ++ '/' :: rest) : LeadsDown (String.ofList first) := by
    refine h _ ?_
    rw [FileTree.stepsOf, hmore, List.splitOn_append_cons_self, List.splitOn_eq_singleton hslash]
    simp
  generalize hchars : more.toList = chars
  fun_cases splitFront chars with
  | case1 rest => exact absurd rfl (hfirst [] rest (by simp) hchars).ne_empty
  | case2 =>
    have hdot : more = "." := String.toList_inj.1 hchars
    subst hdot
    refine absurd rfl (h "." ?_).ne_here
    rw [FileTree.stepsOf_eq_singleton (by decide)]
    exact List.mem_singleton_self _
  | case3 rest => exact absurd rfl (hfirst ['.'] rest (by simp) hchars).ne_here
  | case4 => rfl

theorem namesOf_of_leadsDown {more : String} (h : ∀ step ∈ FileTree.stepsOf more, LeadsDown step) :
    namesOf more.toList = (FileTree.stepsOf more).map .name := by
  have hnames : namesOf more.toList =
      (FileTree.stepsOf more).filterMap (Path.component? ·.toList) := by
    simp [namesOf, FileTree.stepsOf, List.filterMap_map]
  rw [hnames, ← List.filterMap_eq_map]
  exact List.filterMap_congr fun step hstep => (h step hstep).component?

/-- Below a root there are the components of the root, and then one for each step down. -/
theorem components_opened_append_of_leadsDown (root more : String)
    (h : ∀ step ∈ FileTree.stepsOf more, LeadsDown step) :
    components (opened root ++ more) = components root ++ (FileTree.stepsOf more).map .name ∧
      (IsAbsolute (opened root ++ more) ↔ IsAbsolute root) := by
  have hfront := splitFront_of_leadsDown h
  refine ⟨?_, isAbsolute_opened_append fun hslash => ?_⟩
  · rw [components_opened_append root hfront, namesOf_of_leadsDown h]
  · obtain ⟨rest, hrest⟩ := List.head?_eq_some_iff.1 hslash
    rw [hrest] at hfront
    exact absurd (congrArg Prod.fst hfront) (List.cons_ne_nil _ _)

end Path

/-! ### Files of classes -/

theorem FileKind.length_suffix (kind : FileKind) : 5 ≤ kind.suffix.length := by
  cases kind <;> decide

namespace ClassName

variable (n : ClassName)

theorem dot_notMem_of_mem_segments {segment : String} (h : segment ∈ n.segments) :
    '.' ∉ segment.toList := by
  refine List.count_eq_zero.1 (List.sum_eq_zero_iff_forall_eq_nat.1 n.sum_count_dot_segments _ ?_)
  exact List.mem_map_of_mem h

/-- The steps from a root to the file of the class. -/
def stepsDown (kind : FileKind) : List String :=
  n.packages.filter (· ≠ "") ++ [n.lastSegment ++ kind.suffix]

theorem leadsDown_of_mem_stepsDown (kind : FileKind) :
    ∀ step ∈ n.stepsDown kind, Path.LeadsDown step := by
  intro step hstep
  rcases List.mem_append.1 hstep with hpackage | hlast
  · obtain ⟨hpackage, hne⟩ := List.mem_filter.1 hpackage
    have hdot := n.dot_notMem_of_mem_segments (List.dropLast_subset _ hpackage)
    refine ⟨by simpa using hne, ?_, ?_, n.slash_notMem_packages step hpackage⟩
    · rintro rfl
      exact hdot (by decide)
    · rintro rfl
      exact hdot (by decide)
  · obtain rfl := List.mem_singleton.1 hlast
    have hlong (short : String) (hshort : short.length < 5) :
        n.lastSegment ++ kind.suffix ≠ short := by
      rintro rfl
      rw [String.length_append] at hshort
      have := kind.length_suffix
      omega
    exact ⟨hlong "" (by decide), hlong "." (by decide), hlong ".." (by decide),
      n.slash_notMem_fileName kind⟩

theorem pathBelow_eq_opened (kind : FileKind) (root : String) :
    ∃ more, n.pathBelow kind root = Path.opened root ++ more ∧
      FileTree.stepsOf more = n.stepsDown kind := by
  refine ⟨n.withoutGaps ++ kind.suffix, ?_, ?_⟩
  · rw [pathBelow_eq, String.append_assoc]
  · rw [withoutGaps, String.append_assoc, Path.stepsOf_opening_append n.slash_notMem_packages,
      FileTree.stepsOf_eq_singleton (n.slash_notMem_fileName kind)]
    rfl

end ClassName

namespace ClassId

/-- Whatever id there is, one that was read or one that comes from such an id, and whatever the
root: arrays have no file, and the file of a class lies below the root. It is reached from the
root by the packages that are not empty and by the last segment with the suffix, and every one
of these steps leads down. -/
theorem pathBelow?_leadsDown (kind : FileKind) (root : String) (id : ClassId) :
    (id.pathBelow? kind root = none ↔ id.isArray = true) ∧
      ∀ path, id.pathBelow? kind root = some path → ∃ packages last steps,
        id.segments = packages ++ [last] ∧
          steps = packages.filter (· ≠ "") ++ [last ++ kind.suffix] ∧
          Path.components path = Path.components root ++ steps.map .name ∧
          (∀ step ∈ steps, Path.LeadsDown step) ∧
          (Path.IsAbsolute path ↔ Path.IsAbsolute root) := by
  constructor
  · match id with
    | object 0 n => simp [pathBelow?, isArray, dimensions]
    | object (d + 1) n => simp [pathBelow?, isArray, dimensions]
    | primitive f p => simp [pathBelow?, isArray, dimensions]
  · intro path hpath
    obtain ⟨n, rfl, rfl⟩ := exists_of_pathBelow? hpath
    obtain ⟨more, hmore, hsteps⟩ := n.pathBelow_eq_opened kind root
    have hdown := n.leadsDown_of_mem_stepsDown kind
    have hbelow := Path.components_opened_append_of_leadsDown root more (by rwa [hsteps])
    rw [hsteps, ← hmore] at hbelow
    exact ⟨n.packages, n.lastSegment, n.stepsDown kind, n.packages_append_lastSegment.symm, rfl,
      hbelow.1, hdown, hbelow.2⟩

end ClassId

end ClassAtlas
