import ClassAtlas.Proofs.Report.Lists

/-!
# Sources and packages of a frontier

The sources of a frontier are the top levels of its internal classes. A class stands in the
class that is its top level: it has the same name, or that name, a dollar sign and more of the
same segment. There is only one class without a dollar sign in its last segment in which a given
class stands, so the classes of one source file have one source. A top level has the package of
the classes that stand in it, so the packages that are provided are those of the sources.
-/

namespace ClassAtlas

namespace ClassName

variable {n top : ClassName}

/-- A class that ends no later than its first dollar sign. -/
def IsTopLevel (n : ClassName) : Prop :=
  '$' ∉ n.lastSegment.toList

/-- The class is `top` or is nested in it: its name goes on with a dollar sign at most, and not
beyond the segment. -/
def StandsIn (n top : ClassName) : Prop :=
  n.text = top.text ∨ ∃ rest : List Char, '/' ∉ rest ∧ n.text.toList = top.text.toList ++ '$' :: rest

theorem toList_lastSegment (n : ClassName) : n.lastSegment.toList = n.leaf := by
  have hleaf : FileTree.stepsOf (String.ofList n.leaf) = [String.ofList n.leaf] :=
    FileTree.stepsOf_eq_singleton (by simpa using n.slash_notMem_leaf)
  have htext : n.text = String.ofList n.directory ++ String.ofList n.leaf := by
    rw [← String.ofList_append, n.directory_append_leaf, String.ofList_toList]
  rw [lastSegment, segments_eq_stepsOf, htext]
  obtain hnone | ⟨d, hd⟩ := n.directory_eq_nil_or
  · rw [hnone, String.ofList_nil, String.empty_append, hleaf]
    exact String.toList_ofList
  · have hslash : String.ofList (d ++ ['/']) = String.ofList d ++ "/" := String.ofList_append
    rw [hd, hslash, FileTree.stepsOf_append_slash, hleaf]
    simp

theorem isTopLevel_topLevel (n : ClassName) : n.topLevel.IsTopLevel := by
  rw [IsTopLevel, toList_lastSegment, leaf_topLevel]
  intro h
  simpa using List.mem_takeWhile_imp h

theorem package?_topLevel (n : ClassName) : n.topLevel.package? = n.package? := by
  have hpackages : n.topLevel.segments.dropLast = n.segments.dropLast := n.packages_topLevel
  rw [package?, hpackages, package?]

theorem standsIn_topLevel (n : ClassName) : n.StandsIn n.topLevel := by
  have hsplit : n.text.toList = n.topLevel.text.toList ++ n.leaf.dropWhile (· != '$') := by
    rw [← n.directory_append_leaf, topLevel, String.toList_ofList, List.append_assoc,
      List.takeWhile_append_dropWhile]
  cases hrest : n.leaf.dropWhile (· != '$') with
  | nil =>
    rw [hrest, List.append_nil] at hsplit
    exact Or.inl (String.toList_inj.1 hsplit)
  | cons c rest =>
    have hnot := List.dropWhile_get_zero_not (p := (· != '$')) n.leaf (by simp [hrest])
    have hdollar : c = '$' := by simpa [hrest] using hnot
    have hmem : ∀ d ∈ rest, d ∈ n.leaf := fun d hd =>
      (List.dropWhile_sublist (· != '$')).mem (hrest ▸ List.mem_cons_of_mem c hd)
    refine Or.inr ⟨rest, fun hslash => n.slash_notMem_leaf (hmem _ hslash), ?_⟩
    rw [hsplit, hrest, hdollar]

/-- A class stands in no other class without a dollar sign than its top level. -/
theorem StandsIn.topLevel_eq (h : n.StandsIn top) (htop : top.IsTopLevel) : n.topLevel = top := by
  rw [IsTopLevel, toList_lastSegment] at htop
  obtain heq | ⟨rest, hslash, hrest⟩ := h
  · rw [ext_text heq, topLevel_eq_self htop]
  -- The last slash of the name is that of its top level, whose segment is followed by the dollar.
  · have hmore : ∀ c ∈ ('$' :: rest).reverse, (c != '/') = true := by
      intro c hc
      have hmem := List.mem_reverse.1 hc
      simpa using fun heq : c = '/' => by simp [heq, hslash] at hmem
    have hdirectory : n.directory = top.directory := by
      rw [directory, hrest, List.reverse_append, List.dropWhile_append_of_pos hmore, directory]
    have hleaf : n.leaf = top.leaf ++ '$' :: rest := by
      rw [leaf, hrest, List.reverse_append, List.takeWhile_append_of_pos hmore,
        List.reverse_append, List.reverse_reverse, leaf]
    have hfront : ∀ c ∈ top.leaf, (c != '$') = true := fun c hc => by
      simpa using fun heq : c = '$' => htop (heq ▸ hc)
    apply ext_text
    apply String.toList_inj.1
    rw [topLevel, String.toList_ofList, hdirectory, hleaf, List.takeWhile_append_of_pos hfront]
    simp

theorem topLevel_ofName_of_isTopLevel (h : top.IsTopLevel) :
    (ClassId.ofName top).topLevel = .ofName top := by
  rw [IsTopLevel, toList_lastSegment] at h
  rw [ClassId.topLevel_ofName, topLevel_eq_self h]

end ClassName

namespace Frontier

theorem mem_packagesOf {names : NameSet} {package : String} :
    package ∈ packagesOf names ↔ ∃ n ∈ names, n.package? = some package := by
  rw [packagesOf, Std.TreeSet.mem_ofList, List.contains_iff_mem, List.mem_filterMap]
  simp only [Std.TreeSet.mem_toList]

/-- What the sources of a frontier say about the ids submitted to it. -/
structure TellsSources (f : Frontier) (probe : Probe) (submitted : List ClassId) : Prop where
  /-- The packages that are provided are those of the sources. -/
  mem_exports (package : String) :
    package ∈ f.exports ↔ ∃ source ∈ f.sources, source.package? = some package
  exports_eq : f.exports.toList = (packagesOf f.sources).toList
  isTopLevel (source : ClassName) (h : source ∈ f.sources) : source.IsTopLevel
  topLevel_eq (source : ClassName) (h : source ∈ f.sources) :
    (ClassId.ofName source).topLevel = .ofName source
  /-- Every internal class stands in a source, which is its top level. -/
  standsIn (n : ClassName) (h : n ∈ f.internal) :
    ∃ source ∈ f.sources, (ClassId.ofName n).topLevel = .ofName source ∧ n.StandsIn source
  /-- All internal classes that stand in one top level have that one for their source. -/
  shared (n top : ClassName) (h : n ∈ f.internal) (htop : top.IsTopLevel) (hin : n.StandsIn top) :
    top ∈ f.sources ∧ (ClassId.ofName n).topLevel = .ofName top
  /-- The sources are the top levels in which a submitted class stands that the probe knows. -/
  mem_sources (source : ClassName) : source ∈ f.sources ↔ source.IsTopLevel ∧
    ∃ id ∈ submitted, ∃ n, id.base? = some (.ofName n) ∧ probe.contains (.ofName n) = true ∧
      n.StandsIn source

theorem mem_exports_iff (f : Frontier) {package : String} :
    package ∈ f.exports ↔ ∃ source ∈ f.sources, source.package? = some package := by
  rw [exports, mem_packagesOf]
  constructor
  · rintro ⟨n, hn, hpackage⟩
    exact ⟨n.topLevel, f.mem_sources.2 ⟨n, hn, rfl⟩, n.package?_topLevel.trans hpackage⟩
  · rintro ⟨source, hsource, hpackage⟩
    obtain ⟨n, hn, rfl⟩ := f.mem_sources.1 hsource
    exact ⟨n, hn, n.package?_topLevel.symm.trans hpackage⟩

theorem isTopLevel_of_mem_sources {f : Frontier} {source : ClassName} (h : source ∈ f.sources) :
    source.IsTopLevel := by
  obtain ⟨n, -, rfl⟩ := f.mem_sources.1 h
  exact n.isTopLevel_topLevel

theorem Tells.tellsSources {f : Frontier} {probe : Probe} {submitted : List ClassId}
    {taken : List ClassName} (h : f.Tells probe submitted taken) :
    f.TellsSources probe submitted where
  mem_exports package := f.mem_exports_iff
  exports_eq := by
    apply Std.TreeSet.Equiv.toList_eq
    apply Std.TreeSet.Equiv.of_forall_mem_iff
    intro package
    rw [mem_exports_iff, mem_packagesOf]
  isTopLevel source hsource := isTopLevel_of_mem_sources hsource
  topLevel_eq source hsource :=
    ClassName.topLevel_ofName_of_isTopLevel (isTopLevel_of_mem_sources hsource)
  standsIn n hn := ⟨n.topLevel, f.mem_sources.2 ⟨n, hn, rfl⟩, ClassId.topLevel_ofName n,
    n.standsIn_topLevel⟩
  shared n top hn htop hin := by
    obtain rfl := hin.topLevel_eq htop
    exact ⟨f.mem_sources.2 ⟨n, hn, rfl⟩, ClassId.topLevel_ofName n⟩
  mem_sources source := by
    rw [Frontier.mem_sources]
    constructor
    · rintro ⟨n, hn, rfl⟩
      obtain ⟨⟨id, hid, hbase⟩, hprobe⟩ := (h.mem_internal n).1 hn
      exact ⟨n.isTopLevel_topLevel, id, hid, n, hbase, hprobe, n.standsIn_topLevel⟩
    · rintro ⟨htop, id, hid, n, hbase, hprobe, hin⟩
      exact ⟨n, (h.mem_internal n).2 ⟨⟨id, hid, hbase⟩, hprobe⟩, hin.topLevel_eq htop⟩

/-- After any row of calls on a new frontier its sources are top levels, one for all classes that
stand in it, and the packages of the sources are the packages of the internal classes. -/
theorem tellsSources_performAll (probe : Probe) (calls : List FrontierCall) :
    (FrontierCall.performAll calls { probe }).2.TellsSources probe
      (calls.flatMap FrontierCall.submitted) :=
  ((accounts_empty probe).performAll calls).tells.tellsSources

/-- Only an array of a nested class is submitted, and the class around it is the source. -/
theorem tellsSources_performAll_nested :
    let nested := ClassName.ofText "a$b/C$D$1"
    let top := ClassName.ofText "a$b/C"
    let probe := Probe.ofIds [.ofName nested]
    let f := (FrontierCall.performAll [.submit (.object 1 nested), .next] { probe }).2
    top.IsTopLevel ∧ nested.StandsIn top ∧ top ∈ f.sources ∧
      (ClassId.ofName top).topLevel = .ofName top ∧ "a$b" ∈ f.exports := by
  intro nested top probe f
  have htop : top.IsTopLevel := by
    unfold ClassName.IsTopLevel
    decide +kernel
  have hin : nested.StandsIn top := Or.inr ⟨['D', '$', '1'], by decide, by decide +kernel⟩
  have hknown : probe.contains (.ofName nested) = true := by decide +kernel
  have htells : f.TellsSources probe [.object 1 nested] := tellsSources_performAll probe _
  have hsource : top ∈ f.sources :=
    (htells.mem_sources top).2 ⟨htop, _, List.mem_singleton_self _, nested, rfl, hknown, hin⟩
  have hpackage : top.package? = some "a$b" := by decide +kernel
  exact ⟨htop, hin, hsource, htells.topLevel_eq top hsource,
    (htells.mem_exports "a$b").2 ⟨top, hsource, hpackage⟩⟩

end Frontier

end ClassAtlas
