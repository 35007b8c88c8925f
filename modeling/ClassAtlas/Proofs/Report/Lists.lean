import Mathlib.Data.String.Basic
import ClassAtlas.Proofs.Annotations.Canonical
import ClassAtlas.Proofs.ClassId.WrittenForm
import ClassAtlas.Proofs.ClassPath.Files
import ClassAtlas.Proofs.Frontier.Histories
import ClassAtlas.Proofs.Plan.Loading

/-!
# The lists in reports

The class files, the sources and the makefile lines of a frontier are each listed in order.
Sources are listed by their class names, which differ from class to class, so no source is
listed twice. Class files and makefile lines are listed by path, and two classes with names
that differ in empty packages only share their path. So the other two lists are free of
repetitions exactly when no such classes are among those listed. A survey that was carried out
has no such classes, since their one class file would have to hold both, but their sources may
still coincide.
-/

namespace ClassAtlas

theorem sortedTexts_eq_self {texts : List String} (h : texts.Pairwise (· ≤ ·)) :
    sortedTexts texts = texts :=
  Annotations.eq_of_perm_of_sorted (Annotations.sorted_perm texts)
    (Annotations.sorted_pairwise texts) h

/-- A list in order has no repetitions when the texts have none. -/
theorem pairwise_lt_sortedTexts_iff {texts : List String} :
    (sortedTexts texts).Pairwise (· < ·) ↔ texts.Nodup := by
  have hperm : (sortedTexts texts).Perm texts := Annotations.sorted_perm texts
  have hsorted : (sortedTexts texts).Pairwise (· ≤ ·) := Annotations.sorted_pairwise texts
  constructor
  · intro h
    exact hperm.nodup_iff.1 (h.imp fun hab => ne_of_lt hab)
  · intro h
    refine (hsorted.and (hperm.nodup_iff.2 h)).imp ?_
    rintro a b ⟨hle, hne⟩
    exact lt_of_le_of_ne hle hne

theorem nodup_toList (names : NameSet) : names.toList.Nodup :=
  Std.TreeSet.distinct_toList.imp fun hne heq => hne (Std.compare_eq_iff_eq.2 heq)

theorem pairwise_lt_sortedTexts_map_iff {names : List ClassName} (hnodup : names.Nodup)
    (f : ClassName → String) : (sortedTexts (names.map f)).Pairwise (· < ·) ↔
      ∀ a ∈ names, ∀ b ∈ names, f a = f b → a = b := by
  rw [pairwise_lt_sortedTexts_iff, List.nodup_map_iff_inj_on hnodup]

namespace ClassName

variable {n m : ClassName}

theorem ofText_external (n : ClassName) : ofText (ClassId.ofName n).external = n := by
  apply ext_text
  apply String.toList_inj.1
  simp only [ofText, ClassId.external, ClassId.text_ofName, String.toList_map, List.map_map]
  conv_rhs => rw [← List.map_id n.text.toList]
  refine List.map_congr_left fun c hc => ?_
  have hdot : c ≠ '.' := fun h => n.dotless (h ▸ hc)
  by_cases hslash : c = '/'
  · subst hslash
    rfl
  · simp [hslash, slashed_eq_self hdot]

theorem external_ofName_inj :
    (ClassId.ofName n).external = (ClassId.ofName m).external ↔ n = m := by
  constructor
  · intro h
    rw [← ofText_external n, h, ofText_external]
  · rintro rfl
    rfl

theorem directory_eq_nil_or (n : ClassName) : n.directory = [] ∨ ∃ d, n.directory = d ++ ['/'] := by
  unfold directory
  cases hrest : n.text.toList.reverse.dropWhile (· != '/') with
  | nil => exact Or.inl rfl
  | cons c rest =>
    have hnot := List.dropWhile_get_zero_not (p := (· != '/')) n.text.toList.reverse (by simp [hrest])
    have hc : c = '/' := by simpa [hrest] using hnot
    exact Or.inr ⟨rest.reverse, by rw [List.reverse_cons, hc]⟩

/-- The packages of a class are those that its name goes through before its last segment. -/
theorem packages_eq (n : ClassName) :
    n.packages = (FileTree.stepsOf (String.ofList n.directory)).dropLast := by
  have hleaf : FileTree.stepsOf (String.ofList n.leaf) = [String.ofList n.leaf] :=
    FileTree.stepsOf_eq_singleton (by simpa using n.slash_notMem_leaf)
  have htext : n.text = String.ofList n.directory ++ String.ofList n.leaf := by
    rw [← String.ofList_append, n.directory_append_leaf, String.ofList_toList]
  rw [packages, segments_eq_stepsOf, htext]
  obtain hnone | ⟨d, hd⟩ := n.directory_eq_nil_or
  · rw [hnone, String.ofList_nil, String.empty_append, hleaf]
    rfl
  · have hslash : String.ofList (d ++ ['/']) = String.ofList d ++ "/" := String.ofList_append
    have hnothing : FileTree.stepsOf "" = [""] := FileTree.stepsOf_eq_singleton (by simp)
    have hdirectory := FileTree.stepsOf_append_slash (String.ofList d) ""
    rw [String.append_empty, hnothing] at hdirectory
    rw [hd, hslash, FileTree.stepsOf_append_slash, hleaf, hdirectory, List.dropLast_concat,
      List.dropLast_concat]

theorem directory_topLevel (n : ClassName) : n.topLevel.directory = n.directory := by
  have htext := n.topLevel.directory_append_leaf
  rw [leaf_topLevel] at htext
  simpa [topLevel] using htext

theorem packages_topLevel (n : ClassName) : n.topLevel.packages = n.packages := by
  rw [packages_eq, packages_eq, directory_topLevel]

end ClassName

namespace Frontier

variable (f : Frontier) (t : FileTree) (tree : String) (sourceRoots : List String)

def HasSource (t : FileTree) (sourceRoots : List String) (name : ClassName) : Prop :=
  (t.find? .source sourceRoots (.ofName name)).isSome = true

theorem map_fst_foundSources : (f.foundSources t sourceRoots).map Prod.fst =
    f.sources.toList.filter fun name => (t.find? .source sourceRoots (.ofName name)).isSome := by
  unfold foundSources
  induction f.sources.toList with
  | nil => rfl
  | cons name rest ih =>
    cases hfound : t.find? .source sourceRoots (.ofName name) <;> simp [hfound, ih]

theorem nodup_foundSources : ((f.foundSources t sourceRoots).map Prod.fst).Nodup := by
  rw [map_fst_foundSources]
  exact (nodup_toList f.sources).filter _

theorem mem_foundSources {name : ClassName} :
    name ∈ (f.foundSources t sourceRoots).map Prod.fst ↔
      name ∈ f.sources ∧ HasSource t sourceRoots name := by
  rw [map_fst_foundSources, List.mem_filter, Std.TreeSet.mem_toList]
  rfl

theorem sourceList_eq : f.sourceList t sourceRoots =
    sortedTexts (((f.foundSources t sourceRoots).map Prod.fst).map fun name =>
      (ClassId.ofName name).external) := by
  rw [List.map_map]
  rfl

theorem makeLines_eq : f.makeLines t tree sourceRoots =
    sortedTexts (((f.foundSources t sourceRoots).map Prod.fst).map fun name =>
      "srclist-" ++ tree ++ " += " ++ name.pathBelow .source "") := by
  rw [List.map_map]
  rfl

theorem sourceList_pairwise_lt : (f.sourceList t sourceRoots).Pairwise (· < ·) := by
  rw [sourceList_eq, pairwise_lt_sortedTexts_map_iff (f.nodup_foundSources t sourceRoots)]
  intro a _ b _ h
  exact ClassName.external_ofName_inj.1 h

/-- Class files are listed once each when no two of the classes share theirs. -/
theorem classList_pairwise_lt_iff : f.classList.Pairwise (· < ·) ↔
    ∀ a ∈ f.internal, ∀ b ∈ f.internal, a.withoutGaps = b.withoutGaps → a = b := by
  unfold classList
  rw [pairwise_lt_sortedTexts_map_iff (nodup_toList f.internal)]
  simp only [Std.TreeSet.mem_toList, ClassName.pathBelow_inj]

theorem makeLines_pairwise_lt_iff : (f.makeLines t tree sourceRoots).Pairwise (· < ·) ↔
    ∀ a ∈ f.sources, ∀ b ∈ f.sources, HasSource t sourceRoots a → HasSource t sourceRoots b →
      a.withoutGaps = b.withoutGaps → a = b := by
  rw [makeLines_eq, pairwise_lt_sortedTexts_map_iff (f.nodup_foundSources t sourceRoots)]
  simp only [mem_foundSources, String.append_right_inj, ClassName.pathBelow_inj]
  grind

theorem eq_of_withoutGaps {names : NameSet} (h : ∀ name ∈ names, "" ∉ name.packages)
    {a b : ClassName} (ha : a ∈ names) (hb : b ∈ names) (hsame : a.withoutGaps = b.withoutGaps) :
    a = b := by
  rw [ClassName.withoutGaps_eq_text (h a ha), ClassName.withoutGaps_eq_text (h b hb)] at hsame
  exact ClassName.ext_text hsame

theorem mem_sources {name : ClassName} :
    name ∈ f.sources ↔ ∃ nested ∈ f.internal, nested.topLevel = name := by
  unfold sources
  rw [Std.TreeSet.mem_ofList, List.contains_iff_mem, List.mem_map]
  simp only [Std.TreeSet.mem_toList]

/-- The three lists of a frontier are in order. Sources are never listed twice. Class files and
makefile lines are listed twice exactly where two classes, or two of the sources found, have
names that differ in empty packages only, and so never when no class has an empty package. -/
theorem lists_in_order (f : Frontier) (t : FileTree) (tree : String)
    (sourceRoots : List String) :
    (f.sourceList t sourceRoots).Pairwise (· < ·) ∧
    f.classList.Pairwise (· ≤ ·) ∧
    (f.classList.Pairwise (· < ·) ↔
      ∀ a ∈ f.internal, ∀ b ∈ f.internal, a.withoutGaps = b.withoutGaps → a = b) ∧
    (f.makeLines t tree sourceRoots).Pairwise (· ≤ ·) ∧
    ((f.makeLines t tree sourceRoots).Pairwise (· < ·) ↔
      ∀ a ∈ f.sources, ∀ b ∈ f.sources, HasSource t sourceRoots a → HasSource t sourceRoots b →
        a.withoutGaps = b.withoutGaps → a = b) ∧
    ((∀ name ∈ f.internal, "" ∉ name.packages) →
      f.classList.Pairwise (· < ·) ∧ (f.makeLines t tree sourceRoots).Pairwise (· < ·)) := by
  refine ⟨f.sourceList_pairwise_lt t sourceRoots, Annotations.sorted_pairwise _,
    f.classList_pairwise_lt_iff, Annotations.sorted_pairwise _,
    f.makeLines_pairwise_lt_iff t tree sourceRoots, ?_⟩
  intro hplain
  constructor
  · rw [classList_pairwise_lt_iff]
    intro a ha b hb hsame
    exact eq_of_withoutGaps hplain ha hb hsame
  · rw [makeLines_pairwise_lt_iff]
    intro a ha b hb _ _ hsame
    refine eq_of_withoutGaps ?_ ha hb hsame
    intro name hname
    obtain ⟨nested, hnested, rfl⟩ := f.mem_sources.1 hname
    rw [ClassName.packages_topLevel]
    exact hplain nested hnested

/-- A frontier with a class and one nested in it, neither of them in an empty package. -/
def nestedFrontier : Frontier :=
  let names := [ClassName.ofText "p/A", .ofText "p/A$B"]
  (FrontierCall.performAll (names.map fun name => .submit (.ofName name))
    { probe := .ofIds (names.map .ofName) }).2

theorem lists_in_order_nested :
    nestedFrontier.internal.toList = [.ofText "p/A", .ofText "p/A$B"] ∧
      (∀ name ∈ nestedFrontier.internal, "" ∉ name.packages) ∧
      nestedFrontier.classList.Pairwise (· < ·) ∧
      (nestedFrontier.makeLines {} "t" []).Pairwise (· < ·) := by
  have hinternal : nestedFrontier.internal.toList = [.ofText "p/A", .ofText "p/A$B"] := by
    decide +kernel
  have hplain : ∀ name ∈ nestedFrontier.internal, "" ∉ name.packages := by
    intro name hname
    have hall : ∀ name ∈ [ClassName.ofText "p/A", .ofText "p/A$B"], "" ∉ name.packages := by
      decide +kernel
    exact hall name (hinternal ▸ Std.TreeSet.mem_toList.2 hname)
  exact ⟨hinternal, hplain, (lists_in_order nestedFrontier {} "t" []).2.2.2.2.2 hplain⟩

/-- The names `/a` and `a` differ in an empty package only. -/
theorem exists_repeated_line :
    ∃ calls probe, (FrontierCall.performAll calls { probe }).2.classList = ["a.class", "a.class"] ∧
      ¬ (FrontierCall.performAll calls { probe }).2.classList.Pairwise (· < ·) := by
  let ids := [ClassId.ofName (.ofText "/a"), .ofName (.ofText "a")]
  let calls := ids.map FrontierCall.submit
  have hfiles : (FrontierCall.performAll calls { probe := .ofIds ids }).2.internal.toList.map
      (ClassName.pathBelow .binary "") = ["a.class", "a.class"] := by decide +kernel
  have hlist : (FrontierCall.performAll calls { probe := .ofIds ids }).2.classList =
      ["a.class", "a.class"] := by
    unfold classList
    rw [hfiles]
    exact sortedTexts_eq_self (by decide)
  refine ⟨calls, .ofIds ids, hlist, ?_⟩
  rw [hlist]
  decide

end Frontier

/-- A plan that is carried out lists no class file twice, since a class file holds one class. -/
theorem Plan.classList_of_analyze {plan : Plan} {t : FileTree} {findings : Findings}
    (h : plan.analyze t = .ok findings) : findings.frontier.classList.Pairwise (· < ·) := by
  obtain ⟨starts, s, visited, -, hcomplete, rfl⟩ := complete_of_analyze h
  rw [Frontier.classList_pairwise_lt_iff]
  intro a ha b hb hsame
  obtain ⟨c, -, hc⟩ := hcomplete.look_of_mem ha
  obtain ⟨d, -, hd⟩ := hcomplete.look_of_mem hb
  have haccepts := ((hcomplete.progress.classifies.mem_internal a).1 ha).2
  obtain ⟨path, hpath⟩ := FileTree.exists_find?_of_accepts haccepts
  have hsamePath : t.find? .binary plan.classRoots (.ofName b) = some path := by
    rw [← hpath, FileTree.find?_ofName, FileTree.find?_ofName]
    simp only [ClassName.pathBelow_inj.2 hsame]
  exact Survey.eq_of_isFileOf hpath hsamePath (Survey.isFileOf_of_look hc)
    (Survey.isFileOf_of_look hd)

end ClassAtlas
