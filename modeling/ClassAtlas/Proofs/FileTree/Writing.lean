import Mathlib.Data.List.DropRight
import ClassAtlas.Report
import ClassAtlas.Proofs.FileTree.Walks

/-!
# Writing into a file tree

Where files are written into a tree and directories are made for them, everything else stays
where it is: `Grows` says so, with the places that were written to. What a path led to before
it leads to afterwards, and a path that something was just written to leads to it.
-/

namespace ClassAtlas.FileTree

variable {t u v : FileTree} {written more top location parent : Location} {path : String}

/-- A tree after files were written in it, at the given places, and directories were made. -/
structure Grows (t u : FileTree) (places : List Location) : Prop where
  workingDirectory : u.workingDirectory = t.workingDirectory
  kept {location : Location} {node : FileNode} :
    location ∉ places → t.node? location = some node → u.node? location = some node
  written {location : Location} :
    location ∈ places → t.node? location ≠ some .directory ∧
      ∃ content, u.node? location = some (.file content)

namespace Grows

variable {places others : List Location}

theorem refl (t : FileTree) : Grows t t [] where
  workingDirectory := rfl
  kept _ h := h
  written h := absurd h List.not_mem_nil

theorem directory (h : Grows t u places) (hdirectory : t.node? location = some .directory) :
    u.node? location = some .directory := by
  refine h.kept (fun hmem => ?_) hdirectory
  exact (h.written hmem).1 hdirectory

theorem isSome (h : Grows t u places) (hsome : (t.node? location).isSome = true) :
    (u.node? location).isSome = true := by
  obtain ⟨node, hnode⟩ := Option.isSome_iff_exists.1 hsome
  by_cases hmem : location ∈ places
  · obtain ⟨content, hcontent⟩ := (h.written hmem).2
    rw [hcontent]
    rfl
  · rw [h.kept hmem hnode]
    rfl

theorem trans (h : Grows t u places) (h' : Grows u v others) : Grows t v (places ++ others) where
  workingDirectory := h'.workingDirectory.trans h.workingDirectory
  kept hmem hnode := by
    rw [List.mem_append, not_or] at hmem
    exact h'.kept hmem.2 (h.kept hmem.1 hnode)
  written {location} hmem := by
    by_cases hlater : location ∈ others
    · obtain ⟨hnot, hfile⟩ := h'.written hlater
      exact ⟨fun hdirectory => hnot (h.directory hdirectory), hfile⟩
    · obtain ⟨hnot, content, hcontent⟩ := h.written ((List.mem_append.1 hmem).resolve_right hlater)
      exact ⟨hnot, content, h'.kept hlater hcontent⟩

theorem origin (h : Grows t u places) (path : String) : u.origin path = t.origin path := by
  rw [FileTree.origin, FileTree.origin, h.workingDirectory]

theorem descend (h : Grows t u places) {steps : List String}
    (hsteps : t.descend top steps = .ok location) : u.descend top steps = .ok location := by
  induction steps generalizing top with
  | nil => exact hsteps
  | cons step steps ih =>
    have htop : t.node? top = some .directory := by
      by_contra hnot
      simp [FileTree.descend, hnot] at hsteps
    rw [FileTree.descend, if_neg (not_not_intro htop)] at hsteps
    rw [FileTree.descend, if_neg (not_not_intro (h.directory htop))]
    split_ifs at hsteps with hidle hup hlong hgone
    · rw [if_pos hidle, ih hsteps]
    · rw [if_neg hidle, if_pos hup, ih hsteps]
    · have hthere := h.isSome (by simpa [Option.isSome_iff_ne_none] using hgone)
      rw [if_neg hidle, if_neg hup, if_neg hlong, if_neg (by simpa [Option.isSome_iff_ne_none] using hthere), ih hsteps]

/-- A path that led somewhere still leads there. -/
theorem resolve (h : Grows t u places) (hpath : t.resolve path = .ok location) :
    u.resolve path = .ok location := by
  rw [resolve_eq_ok] at hpath ⊢
  rw [h.origin path]
  exact ⟨hpath.1, h.descend hpath.2⟩

end Grows

/-! ### One node more -/

theorem node?_insert (hne : location ≠ []) (node : FileNode) (other : Location) :
    ({ t with nodes := t.nodes.insert location node } : FileTree).node? other =
      if other = location then some node else t.node? other := by
  by_cases hnil : other = []
  · subst hnil
    rw [node?_nil, if_neg (Ne.symm hne), node?_nil]
  · rw [node?_eq_getElem? hnil, node?_eq_getElem? hnil, Std.TreeMap.getElem?_insert]
    simp only [Std.compare_eq_iff_eq, @eq_comm _ location]

theorem grows_insert_directory (h : t.node? location = none) :
    Grows t { t with nodes := t.nodes.insert location .directory } [] where
  workingDirectory := rfl
  kept {other node} _ hnode := by
    have hne : location ≠ [] := by
      rintro rfl
      simp at h
    rw [node?_insert hne, if_neg, hnode]
    rintro rfl
    rw [h] at hnode
    contradiction
  written h := absurd h List.not_mem_nil

theorem grows_insert_file (h : t.node? location ≠ some .directory) (content : List UInt8) :
    Grows t { t with nodes := t.nodes.insert location (.file content) } [location] := by
  have hne : location ≠ [] := by
    rintro rfl
    simp at h
  constructor
  · rfl
  · intro other node hother hnode
    rw [node?_insert hne, if_neg (by simpa using hother), hnode]
  · intro other hother
    rw [List.mem_singleton.1 hother]
    exact ⟨h, content, by rw [node?_insert hne, if_pos rfl]⟩

/-! ### Making directories -/

def leftBy {ε σ α : Type} : EStateM.Result ε σ α → σ
  | .ok _ s | .error _ s => s

theorem grows_makeDirectory (path : String) (t : FileTree) :
    Grows t (leftBy (makeDirectory path t)) [] := by
  unfold makeDirectory
  split
  · exact .refl t
  · exact .refl t
  · next parent name _ _ =>
    split
    · exact .refl t
    · split
      · exact .refl t
      · next hnone => exact grows_insert_directory (by simpa using hnone)

theorem grows_ensureDirectory (path : String) (t : FileTree) :
    Grows t (leftBy (ensureDirectory path t)) [] := by
  have hmade := grows_makeDirectory path t
  unfold ensureDirectory
  split
  · next u hu => rwa [hu] at hmade
  · next fault u hu =>
    rw [hu] at hmade
    split
    · exact hmade
    · exact hmade

theorem grows_makeDirectoriesIn (above : Nat) (path : String) (t : FileTree) :
    Grows t (leftBy (makeDirectoriesIn above path t)) [] := by
  induction above generalizing path t with
  | zero => exact grows_ensureDirectory path t
  | succ above ih =>
    have hensured := grows_ensureDirectory path t
    by_cases hempty : path.isEmpty = true
    · simp only [makeDirectoriesIn, if_pos hempty]
      exact .refl t
    · simp only [makeDirectoriesIn, if_neg hempty]
      rcases hresult : ensureDirectory path t with ⟨made, u⟩ | ⟨fault, u⟩
      · rwa [hresult] at hensured
      · rw [hresult] at hensured
        cases fault with
        | alreadyExists | notADirectory | isADirectory | nameTooLong | nulInPath => exact hensured
        | missing =>
          cases Path.parent? path with
          | none => exact hensured
          | some parent =>
            -- What is above is made first, and then the directory is tried again.
            have habove := ih parent u
            simp only [bind, EStateM.bind]
            rcases hmade : makeDirectoriesIn above parent u with ⟨made, v⟩ | ⟨fault, v⟩
            · rw [hmade] at habove
              exact (hensured.trans habove).trans (grows_ensureDirectory path v)
            · rw [hmade] at habove
              exact hensured.trans habove

/-! ### Writing a file -/

/-- The steps of a path without the slashes at its end. -/
def plainSteps (path : String) : List String :=
  ((stepsOf path).reverse.dropWhile (· == "")).reverse

theorem ne_empty_of_getLast?_plainSteps {last : String}
    (h : (plainSteps path).getLast? = some last) : last ≠ "" := by
  rw [plainSteps, List.getLast?_reverse] at h
  rintro rfl
  obtain ⟨rest, hrest⟩ := List.head?_eq_some_iff.1 h
  have hnot := List.dropWhile_get_zero_not (p := (· == "")) (stepsOf path).reverse
    (by simp [hrest])
  simp [hrest] at hnot

theorem plainSteps_eq (h : ¬ (plainSteps path).length < (stepsOf path).length) :
    plainSteps path = stepsOf path :=
  (List.rdropWhile_prefix (· == "") _).eq_of_length_le (Nat.not_lt.1 h)

theorem entry_eq_ok {name : String} (h : t.entry path = .ok ⟨parent, some name, false⟩) :
    checkPath path = .ok () ∧ ∃ steps, stepsOf path = steps ++ [name] ∧
      t.descend (t.origin path) steps = .ok parent ∧ t.node? parent = some .directory ∧
      name ≠ "" ∧ name ≠ "." ∧ name ≠ ".." := by
  have hplain : ((stepsOf path).reverse.dropWhile (· == "")).reverse = plainSteps path := rfl
  unfold entry at h
  cases hcheck : checkPath path with
  | error fault => simp [hcheck, bind, Except.bind] at h
  | ok checked =>
    simp only [hcheck, hplain, bind, Except.bind] at h
    cases hfound : t.descend (t.origin path) (plainSteps path).dropLast with
    | error fault => simp [hfound] at h
    | ok found =>
      by_cases hdirectory : t.node? found = some .directory
      · simp only [hfound, hdirectory, ne_eq, not_true_eq_false, if_false] at h
        cases hlast : (plainSteps path).getLast? with
        | none => simp [hlast, pure, Except.pure] at h
        | some last =>
          by_cases hnamed : last = "." ∨ last = ".."
          · simp [hlast, hnamed, pure, Except.pure] at h
          · simp only [hlast, if_neg hnamed, pure, Except.pure, Except.ok.injEq, Entry.mk.injEq,
              Option.some.injEq, decide_eq_false_iff_not] at h
            obtain ⟨rfl, rfl, hslashed⟩ := h
            have hempty := ne_empty_of_getLast?_plainSteps hlast
            rw [not_or] at hnamed
            rw [plainSteps_eq hslashed] at hfound hlast
            refine ⟨rfl, (stepsOf path).dropLast, ?_, hfound, hdirectory, hempty, hnamed⟩
            exact (List.dropLast_append_getLast? last hlast).symm
      · simp [hfound, hdirectory, throw, throwThe, MonadExceptOf.throw] at h

/-- What was written to a path is where the path leads, and nothing else has changed. -/
theorem write_eq_ok {content : List UInt8} (h : write path content t = .ok () u) :
    ∃ location, u.resolve path = .ok location ∧ Grows t u [location] ∧
      u.node? location = some (.file content) := by
  unfold write at h
  split at h
  · contradiction
  · contradiction
  · contradiction
  · next parent name hentry =>
    obtain ⟨hcheck, steps, hsteps, hparent, hdirectory, hempty, hhere, hup⟩ := entry_eq_ok hentry
    split_ifs at h with hlong hexists
    cases h
    have hgrows := grows_insert_file hexists content
    have hfile : ({ t with nodes := t.nodes.insert (parent ++ [name]) (.file content) } :
        FileTree).node? (parent ++ [name]) = some (.file content) := by
      rw [node?_insert (by simp), if_pos rfl]
    have hidle : ¬ (name = "" ∨ name = ".") := not_or.2 ⟨hempty, hhere⟩
    have hstep := descend_step hidle hup (Nat.not_lt.1 hlong) [] (hgrows.directory hdirectory)
      (by rw [hfile]; rfl)
    refine ⟨parent ++ [name], resolve_eq_ok.2 ⟨hcheck, ?_⟩, hgrows, hfile⟩
    rw [hgrows.origin path, hsteps, descend_append, hgrows.descend hparent]
    exact hstep

theorem read_eq_ok {content : List UInt8} (hpath : t.resolve path = .ok location)
    (hfile : t.node? location = some (.file content)) : t.read path = .ok content := by
  unfold read stat
  simp only [hpath, hfile, bind, Except.bind]
  rfl

/-- A path that lines were written to leads to them. Directories may have been made for it. -/
theorem writeLines_eq_ok {lines : List String} (h : writeLines path lines t = .ok () u) :
    ∃ location, u.resolve path = .ok location ∧ Grows t u [location] ∧
      u.node? location = some (.file (linesContent lines)) := by
  obtain ⟨s, hmade, hwritten⟩ : ∃ s, Grows t s [] ∧
      write path (linesContent lines) s = .ok () u := by
    unfold writeLines at h
    dsimp only at h
    split at h
    · contradiction
    · next made s hmade =>
      refine ⟨s, ?_, ?_⟩
      · split at hmade
        · cases hmade
          exact .refl t
        · next parent hparent =>
          split at hmade
          · cases hmade
            exact .refl t
          · have hgrows := grows_makeDirectoriesIn (parent.length + 1) parent t
            rwa [← makeDirectories, hmade] at hgrows
      · split at h
        · contradiction
        · next hwritten =>
          cases h
          exact hwritten
  obtain ⟨location, hlocation, hgrows, hfile⟩ := write_eq_ok hwritten
  exact ⟨location, hlocation, hmade.trans hgrows, hfile⟩

end ClassAtlas.FileTree
