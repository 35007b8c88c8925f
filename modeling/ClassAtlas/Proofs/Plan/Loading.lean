import ClassAtlas.Plan
import ClassAtlas.Proofs.ClassPath.Search
import ClassAtlas.Proofs.Decoder.Faults
import ClassAtlas.Proofs.Survey.Failures
import ClassAtlas.Proofs.Survey.RootOrder

/-!
# Loading the classes of a plan

The survey of a plan asks for classes that the probe of its class path has accepted, and the
file tree stays as it is, so each of them is loaded from the first candidate on the class
path. What can go wrong with one of them is that its file cannot be read, that it does not
decode, or that one of its signatures has a fault, but not that it has no file. The bound on
the visits of a plan is never met.
-/

namespace ClassAtlas

/-- What went wrong, in whichever class it did. -/
def Error.cause : Error → Error
  | .inClass _ cause => cause.cause
  | e => e

/-- Whether an error says at its bottom that a class has no class file. -/
def Error.SaysNoClassFile (e : Error) : Prop :=
  ∃ id, e.cause = .format (.noClassFile id)

theorem Error.not_saysNoClassFile_of_isOfBytes {e : Error} (h : e.isOfBytes = true) :
    ¬ e.SaysNoClassFile := by
  rintro ⟨id, hid⟩
  cases e with
  | format fault =>
    cases hid
    contradiction
  | inClass | reference | identityMismatch | signature | file | walk => contradiction

theorem Submission.exists_of_fault?_signature {submissions : List Submission} {e : Error}
    (h : fault? submissions = some e) :
    ∃ text position fault, e = .signature text position fault := by
  obtain ⟨earlier, failing, later, -, -, herror, -⟩ := exists_of_fault?_eq_some h
  cases failing with
  | single id => simp [Submission.outcome] at herror
  | signature kind text =>
    change (Signature.parse kind text).error = some e at herror
    unfold Signature.parse at herror
    split at herror
    · contradiction
    · next stop s hstop => exact ⟨text, stop.position, stop.fault, (Option.some.inj herror).symm⟩

namespace Survey

variable {load : ClassName → Except Error (List UInt8)} {probe : Probe} {followsMembers : Bool}
  {roots : List ClassId} {visits : Nat} {out : Run × Survey} {asked : List ClassName}

theorem blames_look {P : Error → Prop} {name : ClassName} (hload : Blames (load name) P)
    (hbytes : ∀ e, e.isOfBytes = true → P e)
    (hsignature : ∀ text position fault, P (.signature text position fault)) :
    Blames (look load followsMembers name) P := by
  unfold look
  split
  · next e hloaded => exact .error (hload e hloaded)
  · next bytes hloaded =>
    split
    · next e hdecode => exact .error (hbytes e (ClassFile.ofBytes_decode _ _ e hdecode))
    · next c hdecode =>
      split
      · next e hfault =>
        obtain ⟨text, position, fault, rfl⟩ := Submission.exists_of_fault?_signature hfault
        exact .error (hsignature text position fault)
      · exact .ok c P

theorem Progress.accepts_of_mem {s : Survey} {visited : List (ClassName × ClassFile)}
    (h : Progress probe load followsMembers roots s visited) {name : ClassName}
    (hname : name ∈ visited.map Prod.fst) : probe.accepts name = true := by
  have horder := h.taken.subset hname
  rw [h.classifies.mem_order, h.classifies.mem_internal] at horder
  exact horder.2

theorem Ends.complete {s : Survey}
    (h : Ends load visits (fresh probe followsMembers roots) (.finished, s) asked) :
    ∃ visited, Complete probe load followsMembers roots s visited := by
  cases h with
  | finished hvisits hnext => exact ⟨_, hvisits, hnext⟩

theorem Ends.accepts (h : Ends load visits (fresh probe followsMembers roots) out asked)
    {name : ClassName} (hname : name ∈ asked) : probe.accepts name = true := by
  have hprogress {visited : List (ClassName × ClassFile)} {t : Survey}
      (hvisits : Visits load (fresh probe followsMembers roots) visited t) :
      Progress probe load followsMembers roots t visited := by
    simpa using hvisits.progress (progress_fresh probe load followsMembers roots)
  cases h with
  | finished hvisits => exact (hprogress hvisits).accepts_of_mem hname
  | unfinished hvisits => exact (hprogress hvisits).accepts_of_mem hname
  | @failed visited t found cause left hvisits hnext hlook =>
    rcases List.mem_append.1 hname with hvisited | hlast
    · exact (hprogress hvisits).accepts_of_mem hvisited
    · rw [List.mem_singleton.1 hlast]
      have hinternal := ((hprogress hvisits).mem_of_next hnext).1
      exact (((hprogress hvisits).classifies.mem_internal found).1 hinternal).2

/-- A run that loads the classes of a class path ends before it has made so many visits. Every
visit is to a class of its own and so to a path of its own, and the paths are short. -/
theorem Ends.ne_unfinished {t : FileTree} {classRoots : List String}
    (h : Ends (t.loadClass classRoots) (256 ^ FileTree.maxPath)
      (fresh (.ofClassPath t classRoots) followsMembers roots) out asked) :
    out.1 ≠ .unfinished := by
  intro hunfinished
  cases h with
  | finished | failed => contradiction
  | @unfinished visited u hvisits hlength hnext =>
    have hprogress : Progress (.ofClassPath t classRoots) (t.loadClass classRoots) followsMembers
        roots u visited := by
      simpa using hvisits.progress (progress_fresh _ _ followsMembers roots)
    have hfound (name : ClassName) (hname : name ∈ visited.map Prod.fst) :
        ∃ path, t.find? .binary classRoots (.ofName name) = some path ∧
          path.utf8ByteSize < FileTree.maxPath ∧
          ∃ c, IsFileOf (t.loadClass classRoots) name c := by
      obtain ⟨path, hpath⟩ := FileTree.exists_find?_of_accepts (hprogress.accepts_of_mem hname)
      obtain ⟨-, -, -, -, -, hat, -⟩ := FileTree.find?_ofName_eq_some_iff.1 hpath
      obtain ⟨v, hv, rfl⟩ := List.mem_map.1 hname
      exact ⟨path, hpath, FileTree.utf8ByteSize_lt_of_hasPath hat, v.2,
        isFileOf_of_look (hprogress.looks v hv)⟩
    have hnames : (visited.map Prod.fst).Nodup :=
      hprogress.taken.sublist.nodup hprogress.classifies.nodup_order
    let pathOf (name : ClassName) := (t.find? .binary classRoots (.ofName name)).getD ""
    have hpaths : ((visited.map Prod.fst).map pathOf).Nodup := by
      refine hnames.map_on fun a ha b hb hsame => ?_
      obtain ⟨path, hpath, -, c, hc⟩ := hfound a ha
      obtain ⟨other, hother, -, d, hd⟩ := hfound b hb
      simp only [pathOf, hpath, hother, Option.getD_some] at hsame
      exact eq_of_isFileOf hpath (hsame ▸ hother) hc hd
    have hshort (path : String) (h : path ∈ (visited.map Prod.fst).map pathOf) :
        path.utf8ByteSize < FileTree.maxPath := by
      obtain ⟨name, hname, rfl⟩ := List.mem_map.1 h
      obtain ⟨path, hpath, hsize, -⟩ := hfound name hname
      simpa [pathOf, hpath] using hsize
    have hlt := length_lt_of_short hpaths hshort
    rw [List.length_map, List.length_map, hlength] at hlt
    exact Nat.lt_irrefl _ hlt

end Survey

namespace Plan

variable {plan : Plan} {t : FileTree}

/-- The run that a plan describes, with what its loader is asked for. -/
def tracedRun (plan : Plan) (t : FileTree) (starts : List ClassId) :
    (Run × Survey) × List ClassName :=
  (Survey.run (Survey.traced (t.loadClass plan.classRoots)) visitBound
    (Survey.fresh (.ofClassPath t plan.classRoots) plan.followsMembers starts)).run []

theorem visitBound_eq : visitBound = 256 ^ FileTree.maxPath := by
  unfold visitBound
  generalize FileTree.maxPath = length
  exact Nat.pow_eq

def resultOf : Run × Survey → Except Error Findings
  | (.failed e, _) => .error e
  | (.finished, s) | (.unfinished, s) => .ok ⟨s.profile, s.frontier, s.analyzed⟩

theorem analyze_of_starts_error {e : Error} (h : plan.starts t = .error e) :
    plan.analyze t = .error e := by
  unfold analyze
  rw [h]
  rfl

theorem analyze_of_starts_ok {starts : List ClassId} (h : plan.starts t = .ok starts) :
    plan.analyze t = resultOf (plan.tracedRun t starts).1 := by
  unfold analyze tracedRun StateT.run
  generalize visitBound = visits
  have htraced := @Survey.run_traced_fst (t.loadClass plan.classRoots) visits
    (Survey.fresh (.ofClassPath t plan.classRoots) plan.followsMembers starts) []
  rw [h, htraced]
  unfold Survey.fresh
  dsimp only [bind, Except.bind]
  generalize Id.run (Survey.run _ visits _) = out
  rcases out with ⟨_ | e | _, s⟩ <;> rfl

theorem blames_loadClass {name : ClassName} {classRoots : List String}
    (h : (Probe.ofClassPath t classRoots).accepts name = true) :
    Blames (t.loadClass classRoots name) fun e => ¬ e.SaysNoClassFile := by
  obtain ⟨path, hpath⟩ := FileTree.exists_find?_of_accepts h
  rw [FileTree.loadClass_of_find? hpath]
  cases t.read path with
  | ok bytes => exact .ok bytes _
  | error fault =>
    refine .error ?_
    rintro ⟨id, hid⟩
    contradiction

theorem blames_discover (root : String) :
    Blames (t.discover root) fun e => ¬ e.SaysNoClassFile := by
  unfold FileTree.discover
  split
  · refine .error ?_
    rintro ⟨id, hid⟩
    contradiction
  · refine Blames.first (Blames.mapM (fun text => ?_) _) _
    exact (ClassId.ofBytes_parse text).mono fun e => Error.not_saysNoClassFile_of_isOfBytes

theorem blames_starts (plan : Plan) (t : FileTree) :
    Blames (plan.starts t) fun e => ¬ e.SaysNoClassFile := by
  unfold starts
  split
  · exact (Blames.mapM blames_discover plan.classRoots).first _
  · exact .ok _ _

theorem ends_tracedRun (plan : Plan) (t : FileTree) (starts : List ClassId) :
    Survey.Ends (t.loadClass plan.classRoots) visitBound
      (Survey.fresh (.ofClassPath t plan.classRoots) plan.followsMembers starts)
      (plan.tracedRun t starts).1 (plan.tracedRun t starts).2 := by
  unfold tracedRun StateT.run
  generalize visitBound = visits
  obtain ⟨more, hasked, hends⟩ := @Survey.run_traced_ends (t.loadClass plan.classRoots) visits
    (Survey.fresh (.ofClassPath t plan.classRoots) plan.followsMembers starts) []
  rw [hasked]
  exact hends

theorem tracedRun_ne_unfinished (plan : Plan) (t : FileTree) (starts : List ClassId) :
    (plan.tracedRun t starts).1.1 ≠ .unfinished := by
  have hends := plan.ends_tracedRun t starts
  rw [visitBound_eq] at hends
  exact hends.ne_unfinished

/-- What a plan finds is what a complete survey has found. -/
theorem complete_of_analyze {findings : Findings} (h : plan.analyze t = .ok findings) :
    ∃ starts s visited, plan.starts t = .ok starts ∧
      Survey.Complete (.ofClassPath t plan.classRoots) (t.loadClass plan.classRoots)
        plan.followsMembers starts s visited ∧
      findings = ⟨s.profile, s.frontier, s.analyzed⟩ := by
  cases hstarts : plan.starts t with
  | error e =>
    rw [analyze_of_starts_error hstarts] at h
    contradiction
  | ok starts =>
    have hends := plan.ends_tracedRun t starts
    have hdone := plan.tracedRun_ne_unfinished t starts
    rw [analyze_of_starts_ok hstarts] at h
    rcases hout : (plan.tracedRun t starts).1 with ⟨_ | cause | _, s⟩
    · rw [hout] at h hends
      obtain ⟨visited, hcomplete⟩ := hends.complete
      exact ⟨starts, s, visited, rfl, hcomplete, (Except.ok.inj h).symm⟩
    · simp [hout, resultOf] at h
    · exact absurd (by rw [hout]) hdone

theorem not_saysNoClassFile_of_ends {classRoots : List String} {followsMembers : Bool}
    {starts : List ClassId} {visits : Nat} {s : Survey} {asked : List ClassName} {e : Error}
    (h : Survey.Ends (t.loadClass classRoots) visits
      (Survey.fresh (.ofClassPath t classRoots) followsMembers starts) (.failed e, s) asked) :
    ¬ e.SaysNoClassFile := by
  have haccepts {name : ClassName} (hname : name ∈ asked) := h.accepts hname
  cases h with
  | @failed visited u name cause left hvisits hnext hlook =>
    have hlast : name ∈ visited.map Prod.fst ++ [name] := List.mem_append_right _ (by simp)
    have hcause : ¬ cause.SaysNoClassFile := by
      refine Survey.blames_look (blames_loadClass (haccepts hlast)) ?_ ?_ cause hlook
      · exact fun e => Error.not_saysNoClassFile_of_isOfBytes
      · rintro text position fault ⟨id, hid⟩
        contradiction
    exact hcause

/-- A plan never fails because a class has no class file, since each class that is asked for is
loaded from the first candidate on the class path, and that is where the probe locates it. The
run of a plan does not meet its bound, so these are all classes that it would ask for. -/
theorem loads_first_candidates (plan : Plan) (t : FileTree) :
    (∀ e id, plan.analyze t = .error e → e.cause ≠ .format (.noClassFile id)) ∧
    ∀ starts, plan.starts t = .ok starts →
      plan.analyze t = resultOf (plan.tracedRun t starts).1 ∧
      (plan.tracedRun t starts).1.1 ≠ .unfinished ∧
      ∀ name ∈ (plan.tracedRun t starts).2, ∃ path,
        t.IsFirstCandidate .binary plan.classRoots name path ∧
        t.find? .binary plan.classRoots (.ofName name) = some path ∧
        (Probe.ofClassPath t plan.classRoots).locate? (.ofName name) = some path ∧
        t.loadClass plan.classRoots name = (t.read path).mapError (.file path) := by
  constructor
  · intro e id hfailed hcause
    cases hstarts : plan.starts t with
    | error cause =>
      rw [analyze_of_starts_error hstarts, Except.error.injEq] at hfailed
      exact blames_starts plan t e (hfailed ▸ hstarts) ⟨id, hcause⟩
    | ok starts =>
      have hends := plan.ends_tracedRun t starts
      rw [analyze_of_starts_ok hstarts] at hfailed
      rcases hout : (plan.tracedRun t starts).1 with ⟨_ | cause | _, s⟩
      · simp [hout, resultOf] at hfailed
      · rw [hout] at hfailed hends
        cases hfailed
        exact not_saysNoClassFile_of_ends hends ⟨id, hcause⟩
      · simp [hout, resultOf] at hfailed
  · intro starts hstarts
    have hends := plan.ends_tracedRun t starts
    refine ⟨analyze_of_starts_ok hstarts, plan.tracedRun_ne_unfinished t starts, ?_⟩
    intro name hname
    obtain ⟨path, hpath⟩ := FileTree.exists_find?_of_accepts (hends.accepts hname)
    exact ⟨path, FileTree.find?_ofName_eq_some_iff.1 hpath, hpath, hpath,
      FileTree.loadClass_of_find? hpath⟩

/-- Two of three class roots have a file for `p/A`, and the first of these is torn. -/
def tornTree : FileTree where
  nodes := .ofList [(["a"], FileNode.directory), (["b"], .directory), (["b", "p"], .directory),
    (["b", "p", "A.class"], .file [0xCA, 0xFE]), (["c"], .directory), (["c", "p"], .directory),
    (["c", "p", "A.class"], .file Survey.childFile)]

def tornPlan : Plan where
  classRoots := ["a", "b", "c"]
  roots := [.ofName (.ofText "p/A")]

theorem look_tornTree : Survey.look (tornTree.loadClass tornPlan.classRoots) false
    (.ofText "p/A") = .error (.format .cutShort) := by
  have hfound : tornTree.find? .binary tornPlan.classRoots (.ofName (.ofText "p/A")) =
      some "b/p/A.class" := by decide +kernel
  have hread : tornTree.read "b/p/A.class" = .ok [0xCA, 0xFE] := by
    have hcontent : (tornTree.read "b/p/A.class").toOption = some [0xCA, 0xFE] := by
      decide +kernel
    cases hread : tornTree.read "b/p/A.class" <;> simp_all [Except.toOption]
  have hdecode : ClassFile.decode (some (.ofName (.ofText "p/A"))) [0xCA, 0xFE] =
      .error (.format .cutShort) := rfl
  rw [Survey.look, FileTree.loadClass_of_find? hfound, hread]
  simp only [Except.mapError, hdecode]

def tornFault : Error :=
  .inClass (.ofName (.ofText "p/A")) (.format .cutShort)

theorem tracedRun_tornPlan : ∃ s, tornPlan.tracedRun tornTree tornPlan.roots =
    ((.failed tornFault, s), [.ofText "p/A"]) := by
  have hnext : (Survey.fresh (.ofClassPath tornTree tornPlan.classRoots) tornPlan.followsMembers
      tornPlan.roots).frontier.next.1 = some (.ofText "p/A") := by decide +kernel
  obtain ⟨visits, hvisits⟩ : ∃ visits, visitBound = visits + 1 :=
    Nat.exists_eq_succ_of_ne_zero (visitBound_eq ▸ (Nat.pow_pos (by decide)).ne')
  obtain ⟨left, hfailed⟩ := Survey.run_traced_of_look_error (Prod.ext hnext rfl)
    look_tornTree visits []
  rw [tracedRun, StateT.run, hvisits, hfailed]
  exact ⟨_, rfl⟩

/-- The survey ends in the torn file, although there is a whole one further on. -/
theorem loads_first_candidates_torn :
    tornPlan.analyze tornTree = .error tornFault ∧
      (∀ id, tornFault.cause ≠ .format (.noClassFile id)) ∧
      tornPlan.starts tornTree = .ok tornPlan.roots ∧
      (tornPlan.tracedRun tornTree tornPlan.roots).2 = [.ofText "p/A"] ∧
      ∃ path, tornTree.IsFirstCandidate .binary tornPlan.classRoots (.ofText "p/A") path ∧
        tornTree.loadClass tornPlan.classRoots (.ofText "p/A") =
          (tornTree.read path).mapError (.file path) := by
  have hstarts : tornPlan.starts tornTree = .ok tornPlan.roots := rfl
  obtain ⟨s, hrun⟩ := tracedRun_tornPlan
  have hanalyze : tornPlan.analyze tornTree = .error tornFault := by
    rw [analyze_of_starts_ok hstarts, hrun]
    rfl
  obtain ⟨hcause, hloads⟩ := loads_first_candidates tornPlan tornTree
  obtain ⟨-, -, hasked⟩ := hloads tornPlan.roots hstarts
  obtain ⟨path, hfirst, -, -, hload⟩ := hasked (.ofText "p/A") (by rw [hrun]; simp)
  exact ⟨hanalyze, fun id => hcause tornFault id hanalyze, hstarts, by rw [hrun], path, hfirst,
    hload⟩

end Plan

end ClassAtlas
