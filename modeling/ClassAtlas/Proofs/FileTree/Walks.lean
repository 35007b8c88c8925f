import Mathlib.Algebra.GroupWithZero.Nat
import Mathlib.Data.List.Induction
import ClassAtlas.FileTree
import ClassAtlas.Proofs.Text.Lines

/-!
# Walks down a file tree

The steps of a path, and the paths that are made by adding steps to a root. In a tree in which
every node has a name in some directory, what lies below the place a root leads to is reached
by the path that has its names added to the root. A listing of the files below a place has
each file once.
-/

namespace ClassAtlas

namespace FileTree

variable {path step : String}

theorem slash_notMem_of_mem_stepsOf (h : step ∈ stepsOf path) : '/' ∉ step.toList := by
  obtain ⟨chars, hchars, rfl⟩ := List.mem_map.1 h
  rw [String.toList_ofList]
  exact notMem_of_mem_splitOn hchars

theorem stepsOf_ne_nil (path : String) : stepsOf path ≠ [] := by
  simp [stepsOf]

theorem stepsOf_append_slash (path more : String) :
    stepsOf (path ++ "/" ++ more) = stepsOf path ++ stepsOf more := by
  have hslash : ("/" : String).toList = ['/'] := rfl
  unfold stepsOf
  rw [String.toList_append, String.toList_append, hslash, List.append_assoc,
    List.singleton_append, List.splitOn_append_cons_self, List.map_append]

theorem stepsOf_eq_singleton (h : '/' ∉ step.toList) : stepsOf step = [step] := by
  unfold stepsOf
  rw [List.splitOn_eq_singleton h]
  simp

theorem stepsOf_empty : stepsOf "" = [""] :=
  stepsOf_eq_singleton (by simp)

theorem stepsOf_intercalate {steps : List String} (hne : steps ≠ [])
    (h : ∀ step ∈ steps, '/' ∉ step.toList) : stepsOf ("/".intercalate steps) = steps := by
  have hslash : ("/" : String).toList = ['/'] := rfl
  have hparts : ∀ part ∈ steps.map String.toList, '/' ∉ part := by
    intro part hpart
    obtain ⟨step, hstep, rfl⟩ := List.mem_map.1 hpart
    exact h step hstep
  unfold stepsOf
  rw [String.toList_intercalate, hslash, List.splitOn_intercalate '/' hparts (by simpa using hne)]
  simp [Function.comp_def]

theorem intercalate_stepsOf (path : String) : "/".intercalate (stepsOf path) = path := by
  apply String.toList_inj.1
  have hslash : ("/" : String).toList = ['/'] := rfl
  rw [String.toList_intercalate, hslash]
  unfold stepsOf
  simp [Function.comp_def, List.intercalate_splitOn]

end FileTree

namespace Path

/-- A path with a slash behind it where it needs one before it goes on. -/
def opened (path : String) : String :=
  if needsSlash path then path ++ "/" else path

/-- Steps that a path goes on with, each with a slash behind it. Empty steps leave no mark. -/
def opening (steps : List String) : String :=
  String.join ((steps.filter (· ≠ "")).map (· ++ "/"))

theorem push_eq {step : String} (h : '/' ∉ step.toList) (path : String) :
    push path step = opened path ++ step := by
  unfold push opened
  rw [if_neg fun hslash => h (List.mem_of_head? hslash)]
  split <;> rfl

@[simp] theorem opened_empty : opened "" = "" := by
  have hnone : needsSlash "" = false := by decide +kernel
  simp [opened, hnone]

theorem needsSlash_eq (path : String) :
    needsSlash path = path.toList.getLast?.any (· != '/') := by
  unfold needsSlash
  rw [String.back?_eq]
  cases path.toList.getLast? <;> rfl

theorem needsSlash_append {step : String} (path : String) (h : step ≠ "") :
    needsSlash (path ++ step) = needsSlash step := by
  have hchars : step.toList ≠ [] := by simpa using h
  rw [needsSlash_eq, needsSlash_eq, String.toList_append, List.getLast?_append_of_ne_nil _ hchars]

theorem needsSlash_of_slash_notMem {step : String} (hne : step ≠ "") (h : '/' ∉ step.toList) :
    needsSlash step = true := by
  have hchars : step.toList ≠ [] := by simpa using hne
  rw [needsSlash_eq, List.getLast?_eq_some_getLast hchars, Option.any_some, bne_iff_ne]
  intro hlast
  exact h (hlast ▸ List.getLast_mem hchars)

theorem needsSlash_opened (path : String) : needsSlash (opened path) = false := by
  unfold opened
  split
  · rw [needsSlash_append _ (by decide)]
    decide +kernel
  · next h => simpa using h

@[simp] theorem opened_opened (path : String) : opened (opened path) = opened path := by
  rw [opened, if_neg (by simp [needsSlash_opened])]

theorem exists_eq_append_slash {path : String} (hne : path ≠ "") (h : ¬ needsSlash path = true) :
    ∃ front, path = front ++ "/" := by
  have hchars : path.toList ≠ [] := by simpa using hne
  have hlast : path.toList.getLast hchars = '/' := by
    rw [needsSlash_eq, List.getLast?_eq_some_getLast hchars] at h
    simpa using h
  refine ⟨String.ofList path.toList.dropLast, ?_⟩
  apply String.toList_inj.1
  rw [String.toList_append, String.toList_ofList]
  change _ = _ ++ ['/']
  rw [← hlast, List.dropLast_append_getLast]

@[simp] theorem opening_nil : opening [] = "" := rfl

theorem opening_cons_empty (steps : List String) : opening ("" :: steps) = opening steps := by
  simp [opening]

theorem opening_cons {step : String} (h : step ≠ "") (steps : List String) :
    opening (step :: steps) = step ++ "/" ++ opening steps := by
  simp [opening, h, String.join_cons]

theorem stepsOf_opening_append {steps : List String} (h : ∀ step ∈ steps, '/' ∉ step.toList)
    (last : String) :
    FileTree.stepsOf (opening steps ++ last) =
      steps.filter (· ≠ "") ++ FileTree.stepsOf last := by
  induction steps with
  | nil => simp
  | cons step steps ih =>
    obtain ⟨hstep, hsteps⟩ := List.forall_mem_cons.1 h
    by_cases hempty : step = ""
    · subst hempty
      rw [opening_cons_empty, ih hsteps]
      rfl
    · rw [opening_cons hempty, String.append_assoc, FileTree.stepsOf_append_slash, ih hsteps,
        FileTree.stepsOf_eq_singleton hstep, List.filter_cons_of_pos (by simpa using hempty)]
      rfl

/-- Steps with slashes between them have no characters but theirs and slashes. -/
theorem count_intercalate {c : Char} (hc : c ≠ '/') (steps : List String) :
    ("/".intercalate steps).toList.count c = (steps.map fun step => step.toList.count c).sum := by
  induction steps with
  | nil => rfl
  | cons step steps ih =>
    by_cases hnil : steps = []
    · simp [hnil]
    · rw [String.intercalate_cons_of_ne_nil hnil, List.map_cons, List.sum_cons, ← ih]
      simp [Ne.symm hc]

/-- Adding steps adds no characters but theirs and slashes. -/
theorem count_foldl_push {c : Char} (hc : c ≠ '/') {steps : List String}
    (h : ∀ step ∈ steps, '/' ∉ step.toList) (root : String) :
    (steps.foldl push root).toList.count c =
      root.toList.count c + (steps.map fun step => step.toList.count c).sum := by
  induction steps generalizing root with
  | nil => simp
  | cons step steps ih =>
    obtain ⟨hstep, hsteps⟩ := List.forall_mem_cons.1 h
    have hpush : (push root step).toList.count c =
        root.toList.count c + step.toList.count c := by
      rw [push_eq hstep, opened]
      split <;> simp [Ne.symm hc]
    rw [List.foldl_cons, ih hsteps, hpush, List.map_cons, List.sum_cons, Nat.add_assoc]

/-- Going on by steps adds what is not empty among them. -/
theorem opened_foldl_push {steps : List String} (h : ∀ step ∈ steps, '/' ∉ step.toList)
    (root : String) : opened (steps.foldl push root) = opened root ++ opening steps := by
  induction steps generalizing root with
  | nil => simp
  | cons step steps ih =>
    obtain ⟨hstep, hsteps⟩ := List.forall_mem_cons.1 h
    rw [List.foldl_cons, ih hsteps]
    by_cases hempty : step = ""
    · subst hempty
      rw [push_eq hstep, String.append_empty, opened_opened, opening_cons_empty]
    · have hopened : opened (push root step) = opened root ++ (step ++ "/") := by
        rw [push_eq hstep, opened, needsSlash_append _ hempty,
          needsSlash_of_slash_notMem hempty hstep, if_pos rfl, String.append_assoc]
      rw [hopened, opening_cons hempty, String.append_assoc]

end Path

namespace FileTree

/-- A name that something in a directory can have. -/
structure IsName (name : String) : Prop where
  ne_empty : name ≠ ""
  ne_here : name ≠ "."
  ne_up : name ≠ ".."
  slash_notMem : '/' ∉ name.toList
  nul_notMem : '\x00' ∉ name.toList
  short : name.utf8ByteSize ≤ maxName

/-- Everything in the tree has a name in a directory. -/
structure IsProper (t : FileTree) : Prop where
  isName {location : Location} {node : FileNode} :
    t.nodes[location]? = some node → ∀ name ∈ location, IsName name
  parent {location : Location} {name : String} {node : FileNode} :
    t.nodes[location ++ [name]]? = some node → t.node? location = some .directory

instance (name : String) : Decidable (IsName name) :=
  decidable_of_iff (name ≠ "" ∧ name ≠ "." ∧ name ≠ ".." ∧ '/' ∉ name.toList ∧
      '\x00' ∉ name.toList ∧ name.utf8ByteSize ≤ maxName)
    ⟨fun ⟨a, b, c, d, e, f⟩ => ⟨a, b, c, d, e, f⟩, fun ⟨a, b, c, d, e, f⟩ => ⟨a, b, c, d, e, f⟩⟩

variable {t : FileTree} {top location : Location} {node : FileNode} {root : String}

/-- The entries of the table show whether a tree is proper. -/
theorem isProper_of_entries (h : ∀ entry ∈ t.nodes.toList, (∀ name ∈ entry.1, IsName name) ∧
    t.node? entry.1.dropLast = some .directory) : t.IsProper where
  isName := by
    intro location node hnode
    exact (h (location, node) (Std.TreeMap.mem_toList_iff_getElem?_eq_some.2 hnode)).1
  parent := by
    intro location name node hnode
    have hentry := h (location ++ [name], node)
      (Std.TreeMap.mem_toList_iff_getElem?_eq_some.2 hnode)
    simpa using hentry.2

theorem node?_eq_getElem? (h : location ≠ []) : t.node? location = t.nodes[location]? := by
  rw [node?, if_neg (by simpa using h)]

theorem IsProper.directory (ht : t.IsProper) (h : t.nodes[top ++ location]? = some node)
    (hne : location ≠ []) : t.node? top = some .directory := by
  induction location using List.reverseRecOn generalizing node with
  | nil => contradiction
  | append_singleton location name ih =>
    rw [← List.append_assoc] at h
    have hparent := ht.parent h
    by_cases hnil : location = []
    · rwa [hnil, List.append_nil] at hparent
    · rw [node?_eq_getElem? (by simp [hnil])] at hparent
      exact ih hparent hnil

theorem descend_append (t : FileTree) (top : Location) (steps more : List String) :
    t.descend top (steps ++ more) = (do t.descend (← t.descend top steps) more) := by
  induction steps generalizing top with
  | nil => rfl
  | cons step steps ih =>
    rw [List.cons_append, descend, descend]
    split_ifs
    · rfl
    · exact ih top
    · exact ih top.dropLast
    · rfl
    · rfl
    · exact ih (top ++ [step])

theorem descend_step (hidle : ¬ (step = "" ∨ step = ".")) (hup : step ≠ "..")
    (hshort : step.utf8ByteSize ≤ maxName) (steps : List String)
    (htop : t.node? top = some .directory) (hnode : (t.node? (top ++ [step])).isSome = true) :
    t.descend top (step :: steps) = t.descend (top ++ [step]) steps := by
  have hthere : ¬ (t.node? (top ++ [step])).isNone = true := by
    rw [Option.isNone_iff_eq_none]
    exact Option.isSome_iff_ne_none.1 hnode
  rw [descend, if_neg (not_not_intro htop), if_neg hidle, if_neg hup, if_neg (Nat.not_lt.2 hshort),
    if_neg hthere]

theorem descend_name {name : String} (hname : IsName name) (steps : List String)
    (htop : t.node? top = some .directory) (hnode : (t.node? (top ++ [name])).isSome = true) :
    t.descend top (name :: steps) = t.descend (top ++ [name]) steps := by
  have hidle : ¬ (name = "" ∨ name = ".") := by
    rintro (h | h)
    · exact hname.ne_empty h
    · exact hname.ne_here h
  exact descend_step hidle hname.ne_up hname.short steps htop hnode

/-- The names that lead to a node lead there step by step. -/
theorem IsProper.descend_eq (ht : t.IsProper) (h : t.nodes[top ++ location]? = some node) :
    t.descend top location = .ok (top ++ location) := by
  have hnames := ht.isName h
  induction location generalizing top with
  | nil => rw [descend, List.append_nil]
  | cons name location ih =>
    have hsplit : top ++ name :: location = (top ++ [name]) ++ location := by simp
    have htop := ht.directory h (List.cons_ne_nil name location)
    rw [hsplit] at h hnames ⊢
    have hnode : (t.node? (top ++ [name])).isSome = true := by
      by_cases hnil : location = []
      · rw [hnil, List.append_nil] at h
        rw [node?_eq_getElem? (by simp), h]
        rfl
      · rw [ht.directory h hnil]
        rfl
    rw [descend_name (hnames name (by simp)) location htop hnode]
    exact ih h hnames

/-! ### Paths below a root -/

/-- Names are added to a root as one text that has them for its steps. -/
theorem exists_foldl_push_eq (hne : location ≠ []) (h : ∀ name ∈ location, IsName name)
    (root : String) : ∃ more, location.foldl Path.push root = Path.opened root ++ more ∧
      stepsOf more = location := by
  obtain ⟨packages, last, rfl⟩ := (List.eq_nil_or_concat' location).resolve_left hne
  have hslash (name : String) (hname : name ∈ packages) : '/' ∉ name.toList :=
    (h name (List.mem_append_left _ hname)).slash_notMem
  have hlast : '/' ∉ last.toList := (h last (by simp)).slash_notMem
  refine ⟨Path.opening packages ++ last, ?_, ?_⟩
  · rw [List.foldl_append, List.foldl_cons, List.foldl_nil, Path.push_eq hlast,
      Path.opened_foldl_push hslash, String.append_assoc]
  · rw [Path.stepsOf_opening_append hslash, stepsOf_eq_singleton hlast, List.filter_eq_self.2]
    intro name hname
    simpa using (h name (List.mem_append_left _ hname)).ne_empty

theorem checkPath_eq_ok {path : String} : checkPath path = .ok () ↔
    '\x00' ∉ path.toList ∧ path ≠ "" ∧ path.utf8ByteSize < maxPath := by
  unfold checkPath
  split
  · next h => simp [h]
  · next h =>
    split
    · next hempty => simp_all
    · next hempty =>
      have hne : path ≠ "" := by simpa using hempty
      split
      · next hlong => simp [Nat.not_lt.2 hlong]
      · next hshort => simp [h, hne, Nat.lt_of_not_le hshort]

theorem resolve_eq_ok {path : String} : t.resolve path = .ok location ↔
    checkPath path = .ok () ∧ t.descend (t.origin path) (stepsOf path) = .ok location := by
  unfold resolve
  cases checkPath path with
  | error fault => simp [bind, Except.bind]
  | ok checked => simp [bind, Except.bind]

/-- A path that goes on behind its root takes the steps of the root first. A slash at the end of
the root is no step of its own. -/
theorem stepsOf_opened_append (hroot : root ≠ "") (more : String) :
    ∃ steps, stepsOf (Path.opened root ++ more) = steps ++ stepsOf more ∧
      (stepsOf root = steps ∨ stepsOf root = steps ++ [""]) := by
  by_cases hslash : Path.needsSlash root = true
  · refine ⟨stepsOf root, ?_, Or.inl rfl⟩
    rw [Path.opened, if_pos hslash, stepsOf_append_slash]
  · obtain ⟨front, rfl⟩ := Path.exists_eq_append_slash hroot hslash
    refine ⟨stepsOf front, ?_, Or.inr ?_⟩
    · rw [Path.opened, if_neg hslash]
      exact stepsOf_append_slash front more
    · have hsteps := stepsOf_append_slash front ""
      rwa [String.append_empty, stepsOf_empty] at hsteps

theorem origin_opened_append (hroot : root ≠ "") (more : String) :
    t.origin (Path.opened root ++ more) = t.origin root := by
  have hchars : root.toList ≠ [] := by simpa using hroot
  obtain ⟨c, rest, hc⟩ := List.exists_cons_of_ne_nil hchars
  unfold origin Path.opened
  split <;> simp [hc]

/-- What leads somewhere from behind a root leads on to what is below. -/
theorem descend_opened_append (hresolve : t.resolve root = .ok top) (hroot : root ≠ "")
    {more : String} {target : Location} (hmore : t.descend top (stepsOf more) = .ok target) :
    t.descend (t.origin (Path.opened root ++ more)) (stepsOf (Path.opened root ++ more)) =
      .ok target := by
  obtain ⟨-, hdescend⟩ := resolve_eq_ok.1 hresolve
  obtain ⟨steps, hsteps, hfront⟩ := stepsOf_opened_append hroot more
  have htop : t.descend (t.origin root) steps = .ok top := by
    rcases hfront with hfront | hfront
    · rwa [← hfront]
    · rw [hfront, descend_append] at hdescend
      cases hmiddle : t.descend (t.origin root) steps with
      | error fault => simp [hmiddle, bind, Except.bind] at hdescend
      | ok middle =>
        rw [hmiddle] at hdescend
        change t.descend middle [""] = .ok top at hdescend
        rw [descend] at hdescend
        split at hdescend
        · contradiction
        · exact hdescend
  rw [origin_opened_append hroot, hsteps, descend_append, htop]
  exact hmore

/-- What is below a root is at the path that has its names added to the root. -/
theorem IsProper.resolve_below (ht : t.IsProper) (hresolve : t.resolve root = .ok top)
    (h : t.nodes[top ++ location]? = some node)
    (hshort : (location.foldl Path.push root).utf8ByteSize < maxPath) :
    t.resolve (location.foldl Path.push root) = .ok (top ++ location) := by
  obtain ⟨hcheck, -⟩ := resolve_eq_ok.1 hresolve
  obtain ⟨hnul, hroot, -⟩ := checkPath_eq_ok.1 hcheck
  have hnames (name : String) (hname : name ∈ location) : IsName name :=
    ht.isName h name (List.mem_append_right _ hname)
  by_cases hnil : location = []
  · subst hnil
    rw [List.append_nil]
    exact hresolve
  obtain ⟨more, hpath, hsteps⟩ := exists_foldl_push_eq hnil hnames root
  have hnone : '\x00' ∉ (location.foldl Path.push root).toList := by
    have hslash (name : String) (hname : name ∈ location) : '/' ∉ name.toList :=
      (hnames name hname).slash_notMem
    rw [← List.count_eq_zero, Path.count_foldl_push (by decide) hslash, Nat.add_eq_zero_iff,
      List.sum_eq_zero_iff_forall_eq_nat]
    refine ⟨List.count_eq_zero.2 hnul, ?_⟩
    intro count hcount
    obtain ⟨name, hname, rfl⟩ := List.mem_map.1 hcount
    exact List.count_eq_zero.2 (hnames name hname).nul_notMem
  have hmore : more ≠ "" := by
    rintro rfl
    have hempty : "" ∈ location := by simp [← hsteps, stepsOf_empty]
    exact (hnames "" hempty).ne_empty rfl
  have hchecked : checkPath (location.foldl Path.push root) = .ok () :=
    checkPath_eq_ok.2 ⟨hnone, by simp [hpath, hmore], hshort⟩
  refine resolve_eq_ok.2 ⟨hchecked, ?_⟩
  rw [hpath]
  apply descend_opened_append hresolve hroot
  rw [hsteps]
  exact ht.descend_eq h

/-- Different places below a root have different paths. -/
theorem foldl_push_inj {a b : Location} (ha : ∀ name ∈ a, IsName name)
    (hb : ∀ name ∈ b, IsName name) (hane : a ≠ []) (hbne : b ≠ [])
    (h : a.foldl Path.push root = b.foldl Path.push root) : a = b := by
  obtain ⟨more, hpath, hsteps⟩ := exists_foldl_push_eq hane ha root
  obtain ⟨other, hpath', hsteps'⟩ := exists_foldl_push_eq hbne hb root
  rw [hpath, hpath', String.append_right_inj] at h
  rw [← hsteps, h, hsteps']

/-! ### Listings -/

/-- What an entry of the table is listed as. -/
def listed? (top : Location) : Location × FileNode → Option (Location × List UInt8)
  | (location, .file content) => (below? top location).map (·, content)
  | (_, .directory) => none

theorem filesBelow_eq (t : FileTree) (top : Location) :
    t.filesBelow top = t.nodes.toList.filterMap (listed? top) :=
  rfl

theorem listed?_eq_some {entry : Location × FileNode} {place : Location × List UInt8} :
    listed? top entry = some place ↔ entry = (top ++ place.1, .file place.2) := by
  obtain ⟨found, node⟩ := entry
  obtain ⟨below, content⟩ := place
  cases node with
  | directory => simp [listed?]
  | file bytes =>
    rw [listed?, Option.map_eq_some_iff]
    simp [below?_eq_some_iff]

theorem mem_filesBelow {content : List UInt8} : (location, content) ∈ t.filesBelow top ↔
    t.nodes[top ++ location]? = some (.file content) := by
  rw [filesBelow_eq, List.mem_filterMap]
  simp only [listed?_eq_some]
  simp [Std.TreeMap.mem_toList_iff_getElem?_eq_some]

theorem nodup_filesBelow (t : FileTree) (top : Location) :
    ((t.filesBelow top).map Prod.fst).Nodup := by
  have hkeys := t.nodes.distinct_keys_toList
  rw [filesBelow_eq, List.Nodup, List.pairwise_map, List.pairwise_filterMap]
  refine hkeys.imp ?_
  intro first second hne x hx y hy hxy
  rw [listed?_eq_some] at hx hy
  apply hne
  rw [hx, hy, hxy, Std.compare_eq_iff_eq]

end FileTree

end ClassAtlas
