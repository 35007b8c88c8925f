import ClassAtlas.Proofs.Frontier.Growth
import ClassAtlas.Proofs.Survey.Closure

/-!
# Failures of a survey

What is left behind when a class file cannot be taken in, and when a run fails on the way. A
class file that cannot be decoded leaves the survey as it was. One whose signatures have a
fault leaves the classes handed over before the fault, and no line and no count. A run with a
loader that may answer in any way, also by what it was asked before, fails in the class that
was next, and keeps what the classes before this one have added.

`Passes` is a row of classes that are taken in, one after another, and `run_stops` says how a
run goes on behind such a row: it is done, its bound is met, or one class fails.
-/

namespace ClassAtlas

theorem Submission.fault?_single (names : List ClassName) :
    fault? (names.map fun name => .single (.ofName name)) = none := by
  rw [fault?_eq_none_iff]
  intro s hs
  obtain ⟨name, -, rfl⟩ := List.mem_map.1 hs
  rfl

/-- A fault in a class file is that of one of its signatures. The signatures before it have none,
and what the file has handed over are the classes of its pool and those of its signatures up to
the fault. -/
theorem ClassFile.exists_failing_signature {expected : Option ClassId} {bytes : List UInt8}
    {c : ClassFile} (hdecode : decode expected bytes = .ok c) {followsMembers : Bool} {e : Error}
    (h : Submission.fault? (c.submissions followsMembers) = some e) :
    ∃ earlier kind text later,
      c.signatures followsMembers = earlier ++ (kind, text) :: later ∧
      (∀ s ∈ earlier, (Signature.parse s.1 s.2).error = none) ∧
      (Signature.parse kind text).error = some e ∧
      ClassId.names (Submission.classes (c.submissions followsMembers)) =
        ClassId.names (c.pool.classesBySlot ++
          (earlier.flatMap (fun s => (Signature.parse s.1 s.2).classes) ++
            (Signature.parse kind text).classes)) := by
  have hsingle := Submission.fault?_single c.references
  rw [submissions_eq hdecode] at h ⊢
  rw [Submission.fault?_append hsingle] at h
  rw [Submission.classes_append hsingle, ClassId.names_append, names_references hdecode,
    ← ClassId.names_append]
  obtain ⟨before, failing, behind, hsplit, hbefore, herror, hclasses⟩ :=
    Submission.exists_of_fault?_eq_some h
  obtain ⟨earlier, rest, hsignatures, rfl, hrest⟩ := List.map_eq_append_iff.1 hsplit
  obtain ⟨⟨kind, text⟩, later, rfl, rfl, -⟩ := List.map_eq_cons_iff.1 hrest
  refine ⟨earlier, kind, text, later, hsignatures, fun s hs => ?_, herror, ?_⟩
  · exact Submission.fault?_eq_none_iff.1 hbefore _ (List.mem_map_of_mem hs)
  · rw [hclasses, List.flatMap_map]
    rfl

namespace Survey

variable {σ : Type}

/-- A survey with a class file that has named these classes and then failed. -/
structure Interrupted (s t : Survey) (named : Set ClassName) : Prop where
  mem_internal (x : ClassName) : x ∈ t.frontier.internal ↔ x ∈ s.frontier.internal ∨
    x ∈ named ∧ s.frontier.probe.accepts x ∧ x ∉ s.frontier.external
  mem_external (x : ClassName) : x ∈ t.frontier.external ↔ x ∈ s.frontier.external ∨
    x ∈ named ∧ ¬ s.frontier.probe.accepts x ∧ x ∉ s.frontier.internal
  queue : s.frontier.order.toList.drop s.frontier.taken <+:
    t.frontier.order.toList.drop t.frontier.taken

theorem interrupted_submitAll (s : Survey) (ids : List ClassId) :
    Interrupted s { s with frontier := s.frontier.submitAll ids } {x | x ∈ ClassId.names ids} where
  mem_internal _ := Frontier.mem_internal_submitAll
  mem_external _ := Frontier.mem_external_submitAll
  queue := s.frontier.outstanding_submitAll_prefix ids

/-- A class file fails when it cannot be decoded, or in the first of its signatures with a
fault. -/
theorem visit_eq_error {id : ClassId} {bytes : List UInt8} {s t : Survey} {e : Error}
    (h : visit id bytes s = .error e t) :
    (ClassFile.decode (some id) bytes = .error e ∧ t = s) ∨
    ∃ c, ClassFile.decode (some id) bytes = .ok c ∧
      Submission.fault? (c.submissions s.followsMembers) = some e ∧
      t = { s with frontier :=
        s.frontier.submitAll (Submission.classes (c.submissions s.followsMembers)) } := by
  rw [visit_eq] at h
  cases hdecode : ClassFile.decode (some id) bytes with
  | error cause =>
    rw [hdecode] at h
    cases h
    exact Or.inl ⟨rfl, rfl⟩
  | ok c =>
    simp only [hdecode] at h
    cases hfault : Submission.fault? (c.submissions s.followsMembers) with
    | none => simp [hfault] at h
    | some cause =>
      simp only [hfault, EStateM.Result.error.injEq] at h
      obtain ⟨rfl, rfl⟩ := h
      exact Or.inr ⟨c, rfl, hfault, rfl⟩

theorem visit_error_keeps {id : ClassId} {bytes : List UInt8} {s t : Survey} {e : Error}
    (h : visit id bytes s = .error e t) : t.profile = s.profile ∧ t.analyzed = s.analyzed := by
  obtain ⟨-, rfl⟩ | ⟨c, -, -, rfl⟩ := visit_eq_error h <;> exact ⟨rfl, rfl⟩

theorem visit_eq_ok {id : ClassId} {bytes : List UInt8} {s t : Survey}
    (h : visit id bytes s = .ok () t) :
    ∃ c, ClassFile.decode (some id) bytes = .ok c ∧ t = s.looked c := by
  rw [visit_eq] at h
  cases hdecode : ClassFile.decode (some id) bytes with
  | error cause => simp [hdecode] at h
  | ok c =>
    simp only [hdecode] at h
    cases hfault : Submission.fault? (c.submissions s.followsMembers) with
    | some cause => simp [hfault] at h
    | none =>
      simp only [hfault, EStateM.Result.ok.injEq, true_and] at h
      exact ⟨c, rfl, h.symm⟩

/-- A row of classes that a run takes in, each with the class file that the loader has for it. -/
inductive Passes (load : ClassName → StateM σ (Except Error (List UInt8))) :
    Survey → σ → List (ClassName × ClassFile) → Survey → σ → Prop
  | nil (s : Survey) (w : σ) : Passes load s w [] s w
  | cons {s u t : Survey} {w x v : σ} {name : ClassName} {frontier : Frontier}
      {bytes : List UInt8} {c : ClassFile} {visited : List (ClassName × ClassFile)}
      (hnext : s.frontier.next = (some name, frontier))
      (hload : load name w = (.ok bytes, x))
      (hdecode : ClassFile.decode (some (.ofName name)) bytes = .ok c)
      (hvisit : visit (.ofName name) bytes { s with frontier } = .ok () u)
      (hrest : Passes load u x visited t v) :
      Passes load s w ((name, c) :: visited) t v

/-- How a run goes on behind the classes that it has taken in. -/
inductive Stops (load : ClassName → StateM σ (Except Error (List UInt8))) (visits : Nat)
    (s : Survey) (w : σ) : (Run × Survey) × σ → Prop
  | finished {visited : List (ClassName × ClassFile)} {t : Survey} {v : σ}
      (hpasses : Passes load s w visited t v) (hnext : t.frontier.next.1 = none) :
      Stops load visits s w ((.finished, t), v)
  | unfinished {visited : List (ClassName × ClassFile)} {t : Survey} {v : σ}
      (hpasses : Passes load s w visited t v) (hlength : visited.length = visits)
      (hnext : t.frontier.next.1 ≠ none) :
      Stops load visits s w ((.unfinished, t), v)
  | unloaded {visited : List (ClassName × ClassFile)} {t : Survey} {v x : σ} {name : ClassName}
      {frontier : Frontier} {cause : Error}
      (hpasses : Passes load s w visited t v) (hnext : t.frontier.next = (some name, frontier))
      (hload : load name v = (.error cause, x)) :
      Stops load visits s w ((.failed (.inClass (.ofName name) cause), { t with frontier }), x)
  | broken {visited : List (ClassName × ClassFile)} {t u : Survey} {v x : σ} {name : ClassName}
      {frontier : Frontier} {bytes : List UInt8} {cause : Error}
      (hpasses : Passes load s w visited t v) (hnext : t.frontier.next = (some name, frontier))
      (hload : load name v = (.ok bytes, x))
      (hvisit : visit (.ofName name) bytes { t with frontier } = .error cause u) :
      Stops load visits s w ((.failed (.inClass (.ofName name) cause), u), x)

variable {load : ClassName → StateM σ (Except Error (List UInt8))} {s t : Survey} {w v : σ}
  {visited : List (ClassName × ClassFile)}

theorem Stops.cons {u : Survey} {x : σ} {name : ClassName} {frontier : Frontier}
    {bytes : List UInt8} {c : ClassFile} (hnext : s.frontier.next = (some name, frontier))
    (hload : load name w = (.ok bytes, x))
    (hdecode : ClassFile.decode (some (.ofName name)) bytes = .ok c)
    (hvisit : visit (.ofName name) bytes { s with frontier } = .ok () u) {visits : Nat}
    {out : (Run × Survey) × σ} (h : Stops load visits u x out) :
    Stops load (visits + 1) s w out := by
  have hcons {visited : List (ClassName × ClassFile)} {t : Survey} {v : σ}
      (hpasses : Passes load u x visited t v) : Passes load s w ((name, c) :: visited) t v :=
    .cons hnext hload hdecode hvisit hpasses
  cases h with
  | finished hpasses hdone => exact .finished (hcons hpasses) hdone
  | unfinished hpasses hlength hmore =>
    exact .unfinished (hcons hpasses) (by simp [hlength]) hmore
  | unloaded hpasses hat hfail => exact .unloaded (hcons hpasses) hat hfail
  | broken hpasses hat hloaded hfail => exact .broken (hcons hpasses) hat hloaded hfail

/-- Every run takes in a row of classes and then stops in one of these ways. -/
theorem run_stops (load : ClassName → StateM σ (Except Error (List UInt8))) (visits : Nat)
    (s : Survey) (w : σ) : Stops load visits s w (run load visits s w) := by
  induction visits generalizing s w with
  | zero =>
    change Stops load 0 s w ((if s.frontier.hasNext then .unfinished else .finished, s), w)
    rw [hasNext_eq]
    cases hnext : s.frontier.next.1 with
    | none => exact .finished (.nil s w) hnext
    | some name => exact .unfinished (.nil s w) rfl (by simp [hnext])
  | succ visits ih =>
    rw [run_succ]
    rcases hnext : s.frontier.next with ⟨_ | name, frontier⟩
    · exact .finished (.nil s w) (by rw [hnext])
    · dsimp only
      rcases hload : load name w with ⟨cause | bytes, x⟩
      · exact .unloaded (.nil s w) hnext hload
      · dsimp only
        cases hvisit : visit (.ofName name) bytes { s with frontier } with
        | error cause u => exact .broken (.nil s w) hnext hload hvisit
        | ok _ u =>
          obtain ⟨c, hdecode, -⟩ := visit_eq_ok hvisit
          exact (ih u x).cons hnext hload hdecode hvisit

/-- The classes taken in have each added their lines and counted once. -/
theorem Passes.profile_eq (h : Passes load s w visited t v) :
    t.profile = visited.foldl (fun p taken => taken.2.addTo p) s.profile ∧
      t.analyzed = s.analyzed + visited.length := by
  induction h with
  | nil s w => exact ⟨rfl, rfl⟩
  | cons hnext hload hdecode hvisit hrest ih =>
    obtain ⟨found, hfound, rfl⟩ := visit_eq_ok hvisit
    obtain rfl := Except.ok.inj (hfound.symm.trans hdecode)
    refine ⟨ih.1, ih.2.trans ?_⟩
    simp only [looked, List.length_cons]
    omega

/-- A class file that fails leaves the lines and the count as they were. What is known stays
as it was when the file cannot be decoded; when one of its signatures has a fault, exactly the
classes of its pool and those of its signatures up to the fault become known, behind the old
queue. A run that fails does so in the class that was next, which could not be loaded or not
be taken in, and has kept the lines and counts of the classes before it. -/
theorem failure_keeps :
    (∀ (id : ClassId) (bytes : List UInt8) (s t : Survey) (e : Error),
      (visit id bytes).run s = .error e t →
      t.profile = s.profile ∧ t.analyzed = s.analyzed ∧
      ((ClassFile.decode (some id) bytes = .error e ∧ t = s) ∨
        ∃ c earlier kind text later,
          ClassFile.decode (some id) bytes = .ok c ∧
          c.signatures s.followsMembers = earlier ++ (kind, text) :: later ∧
          (∀ m ∈ earlier, (Signature.parse m.1 m.2).error = none) ∧
          (Signature.parse kind text).error = some e ∧
          Interrupted s t {x | ∃ dimensions,
            (∃ index, c.pool.get? index =
              some (.constant (.classLiteral (.object dimensions x)))) ∨
            (∃ m ∈ earlier, .object dimensions x ∈ (Signature.parse m.1 m.2).classes) ∨
            .object dimensions x ∈ (Signature.parse kind text).classes})) ∧
    ∀ (σ : Type) (load : ClassName → StateM σ (Except Error (List UInt8))) (visits : Nat)
      (s t : Survey) (w w' : σ) (e : Error),
      (run load visits s).run w = ((.failed e, t), w') →
      ∃ visited u v name frontier cause,
        Passes load s w visited u v ∧ u.frontier.next = (some name, frontier) ∧
        e = .inClass (.ofName name) cause ∧
        ((load name v = (.error cause, w') ∧ t = { u with frontier }) ∨
          ∃ bytes, load name v = (.ok bytes, w') ∧
            (visit (.ofName name) bytes).run { u with frontier } = .error cause t) ∧
        t.profile = visited.foldl (fun p taken => taken.2.addTo p) s.profile ∧
        t.analyzed = s.analyzed + visited.length := by
  refine ⟨fun id bytes s t e h => ?_, fun σ load visits s t w w' e h => ?_⟩
  · obtain ⟨hlines, hcount⟩ := visit_error_keeps h
    refine ⟨hlines, hcount, ?_⟩
    obtain ⟨hdecode, rfl⟩ | ⟨c, hdecode, hfault, rfl⟩ := visit_eq_error h
    · exact Or.inl ⟨hdecode, rfl⟩
    · obtain ⟨earlier, kind, text, later, hsplit, hearlier, herror, hclasses⟩ :=
        ClassFile.exists_failing_signature hdecode hfault
      refine Or.inr ⟨c, earlier, kind, text, later, hdecode, hsplit, hearlier, herror, ?_⟩
      have hnamed := interrupted_submitAll s (Submission.classes (c.submissions s.followsMembers))
      simpa only [hclasses, ClassId.mem_names_iff_object, List.mem_append, List.mem_flatMap,
        ConstantPool.mem_classesBySlot] using hnamed
  · have hstops := run_stops load visits s w
    change run load visits s w = _ at h
    rw [h] at hstops
    cases hstops with
    | @unloaded visited u v x name frontier cause hpasses hnext hload =>
      obtain ⟨hprofile, hanalyzed⟩ := hpasses.profile_eq
      exact ⟨visited, u, v, name, frontier, cause, hpasses, hnext, rfl, Or.inl ⟨hload, rfl⟩,
        hprofile, hanalyzed⟩
    | @broken visited u t v x name frontier bytes cause hpasses hnext hload hvisit =>
      obtain ⟨hprofile, hanalyzed⟩ := hpasses.profile_eq
      obtain ⟨hlines, hcount⟩ := visit_error_keeps hvisit
      exact ⟨visited, u, v, name, frontier, cause, hpasses, hnext, rfl,
        Or.inr ⟨bytes, hload, hvisit⟩, hlines.trans hprofile, hcount.trans hanalyzed⟩

/-- A survey of a tree with `p/A` and `q/B` that starts from `p/A`. -/
def pairStart : Survey :=
  fresh (.ofIds [.ofName (.ofText "p/A"), .ofName (.ofText "q/B")]) false [.ofName (.ofText "p/A")]

/-- The class file of a class `p/A` whose superclass is `q<B`, so that its own signature opens
type arguments and does not close them. Its pool has `q/B`, too. -/
def openFile : List UInt8 :=
  [0xCA, 0xFE, 0xBA, 0xBE, 0, 0, 0, 52, 0, 7, 1, 0, 3, 112, 47, 65, 7, 0, 1, 1, 0, 3, 113, 60, 66,
   7, 0, 3, 1, 0, 3, 113, 47, 66, 7, 0, 5, 0, 1, 0, 2, 0, 4, 0, 0, 0, 0, 0, 0, 0, 0]

def openVisit : EStateM.Result Error Survey Unit :=
  (visit (.ofName (.ofText "p/A")) openFile).run pairStart

def openFault? : Option Error :=
  match openVisit with
  | .ok _ _ => none
  | .error e _ => some e

/-- A loader that has a class file the first time it is asked, and none after that. -/
def loadOnce (_ : ClassName) : StateM Nat (Except Error (List UInt8)) := fun asked =>
  (if asked = 0 then .ok childFile else .error (.format .cutShort), asked + 1)

def pairRun : (Run × Survey) × Nat :=
  (run loadOnce 3 pairStart).run 0

set_option maxRecDepth 4000 in
/-- The file of `p/A` has a fault in its signature behind the class `q/B` of its pool, or else it
leads to `q/B`, which has no file. -/
theorem failure_keeps_pair :
    (∃ t, openVisit = .error (.signature "Lq<B;" 3 (.expected '>')) t ∧
      t.profile = pairStart.profile ∧ t.analyzed = pairStart.analyzed ∧
      .ofText "q/B" ∉ pairStart.frontier.internal ∧ .ofText "q/B" ∈ t.frontier.internal) ∧
    pairRun = ((.failed (.inClass (.ofName (.ofText "q/B")) (.format .cutShort)), pairRun.1.2), 2) ∧
    ∃ visited u v, Passes loadOnce pairStart 0 visited u v ∧
      pairRun.1.2.profile = visited.foldl (fun p taken => taken.2.addTo p) pairStart.profile ∧
      pairRun.1.2.analyzed = pairStart.analyzed + visited.length := by
  have hopen : openFault? = some (.signature "Lq<B;" 3 (.expected '>')) := by
    decide +kernel
  have hends : (pairRun.1.1, pairRun.2) =
      (.failed (.inClass (.ofName (.ofText "q/B")) (.format .cutShort)), 2) := by
    decide +kernel
  obtain ⟨hfailed, hasked⟩ := Prod.mk.inj hends
  have hrun : pairRun =
      ((.failed (.inClass (.ofName (.ofText "q/B")) (.format .cutShort)), pairRun.1.2), 2) :=
    Prod.ext (Prod.ext hfailed rfl) hasked
  refine ⟨?_, hrun, ?_⟩
  · unfold openFault? at hopen
    cases hvisit : openVisit with
    | ok _ t => simp [hvisit] at hopen
    | error e t =>
      rw [hvisit, Option.some.injEq] at hopen
      obtain ⟨hlines, hcount, hknown⟩ := failure_keeps.1 _ _ _ _ _ hvisit
      refine ⟨t, by rw [hopen], hlines, hcount, by decide +kernel, ?_⟩
      have hentry : (ClassFile.decode (some (.ofName (.ofText "p/A"))) openFile).toOption.bind
          (·.pool.get? 6) = some (.constant (.classLiteral (.ofName (.ofText "q/B")))) := by
        decide +kernel
      obtain ⟨c, hdecode, hclass⟩ := ClassFile.exists_decode_of_get? hentry
      obtain ⟨hfails, -⟩ | ⟨d, _, _, _, _, hd, -, -, -, hnamed⟩ := hknown
      · cases hdecode.symm.trans hfails
      · obtain rfl := Except.ok.inj (hdecode.symm.trans hd)
        exact (hnamed.mem_internal _).2
          (.inr ⟨⟨0, .inl ⟨6, hclass⟩⟩, by decide +kernel, by decide +kernel⟩)
  · obtain ⟨visited, u, v, -, -, -, hpasses, -, -, -, hprofile, hanalyzed⟩ :=
      failure_keeps.2 _ _ _ _ _ _ _ _ hrun
    exact ⟨visited, u, v, hpasses, hprofile, hanalyzed⟩

end Survey

end ClassAtlas
