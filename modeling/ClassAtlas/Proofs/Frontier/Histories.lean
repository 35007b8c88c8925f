import ClassAtlas.Proofs.Frontier.Submissions

/-!
# Histories of a frontier

Any row of calls on a new frontier: ids are submitted, signatures are, whether they can be
read to their end or not, and classes are taken. `Accounts` relates what the frontier holds
to everything submitted and everything taken so far. Each call preserves it, so it holds
after every row of calls. Its consequences: internal and external classes are the two sides
of the probe, the classes taken and those outstanding list the internal ones once each in the
order of first submission, and neither order nor repetition of submissions leaves a mark on
the two sets.
-/

namespace ClassAtlas

inductive FrontierCall where
  | submit (id : ClassId)
  | submitSignature (kind : SignatureKind) (text : String)
  | next

namespace FrontierCall

/-- The ids that a call hands over, those before a fault included. -/
def submitted : FrontierCall → List ClassId
  | submit id => [id]
  | submitSignature kind text => (Signature.parse kind text).classes
  | next => []

/-- The class that a call takes, if it takes one, and the frontier behind the call. A fault
in a signature is reported and leaves the frontier as it is then. -/
def perform (f : Frontier) : FrontierCall → Option ClassName × Frontier
  | submit id => (none, f.submit id)
  | submitSignature kind text =>
    match (ClassSink.accept (.signature kind text) : EStateM Error Frontier Unit).run f with
    | .ok _ f => (none, f)
    | .error _ f => (none, f)
  | next => f.next

/-- The classes that a row of calls takes, in order, and the frontier behind them. -/
def performAll : List FrontierCall → Frontier → List ClassName × Frontier
  | [], f => ([], f)
  | call :: calls, f =>
    let (first, f) := call.perform f
    let (rest, f) := performAll calls f
    (first.toList ++ rest, f)

/-- A signature hands over its classes, whether it has a fault or not. -/
theorem perform_submitSignature (kind : SignatureKind) (text : String) (f : Frontier) :
    (submitSignature kind text).perform f =
      (none, f.submitAll (Signature.parse kind text).classes) := by
  rw [perform, EStateM.run, Frontier.accept_eq]
  dsimp only [Submission.outcome]
  cases (Signature.parse kind text).error <;> rfl

end FrontierCall

theorem ClassId.base?_eq_some_ofName {id : ClassId} {name : ClassName} :
    id.base? = some (.ofName name) ↔ id.className? = some name := by
  simp [ClassId.base?]

theorem ClassId.mem_names_iff_base? {ids : List ClassId} {name : ClassName} :
    name ∈ names ids ↔ ∃ id ∈ ids, id.base? = some (.ofName name) := by
  simp only [mem_names, base?_eq_some_ofName]

namespace Frontier

variable {f : Frontier} {probe : Probe} {submitted : List ClassId} {taken : List ClassName}

/-- The frontier knows the classes of all ids submitted, and those at the front of its order
are the ones taken. -/
structure Accounts (f : Frontier) (probe : Probe) (submitted : List ClassId)
    (taken : List ClassName) : Prop where
  classifies : f.Classifies probe (ClassId.names submitted)
  taken_le : f.taken ≤ f.order.size
  taken_eq : taken = f.order.toList.take f.taken

theorem accounts_empty (probe : Probe) : Accounts { probe } probe [] [] where
  classifies := classifies_empty probe
  taken_le := Nat.le_refl 0
  taken_eq := rfl

namespace Accounts

variable (h : f.Accounts probe submitted taken)
include h

theorem taken_append_outstanding : taken ++ f.outstanding = f.order.toList := by
  rw [h.taken_eq, outstanding, List.take_append_drop]

/-- Submitting adds to what is known and takes nothing. -/
theorem submitAll (ids : List ClassId) :
    (f.submitAll ids).Accounts probe (submitted ++ ids) taken := by
  obtain ⟨added, hadded⟩ := f.order_submitAll_prefix ids
  have hlength : f.taken ≤ f.order.toList.length := by
    rw [Array.length_toList]
    exact h.taken_le
  refine ⟨?_, ?_, ?_⟩
  · rw [ClassId.names_append]
    exact h.classifies.submitAll ids
  · rw [taken_submitAll, ← Array.length_toList, ← hadded, List.length_append]
    omega
  · rw [taken_submitAll, ← hadded, List.take_append_of_le_length hlength]
    exact h.taken_eq

/-- Taking a class moves it from those outstanding to those taken. -/
theorem next : f.next.2.Accounts probe submitted (taken ++ f.next.1.toList) := by
  unfold Frontier.next
  cases hname : f.order[f.taken]? with
  | none => simpa [hname] using h
  | some name =>
    have hlt : f.taken < f.order.size := (Array.getElem?_eq_some_iff.1 hname).1
    have htake : f.order.toList.take (f.taken + 1) = taken ++ [name] := by
      rw [List.take_add_one, ← h.taken_eq, Array.getElem?_toList, hname]
      rfl
    exact ⟨h.classifies.taken _, hlt, htake.symm⟩

theorem perform (call : FrontierCall) :
    (call.perform f).2.Accounts probe (submitted ++ call.submitted)
      (taken ++ (call.perform f).1.toList) := by
  cases call with
  | submit id =>
    have hsubmit : (f.submit id).Accounts probe (submitted ++ [id]) taken := h.submitAll [id]
    simpa [FrontierCall.perform, FrontierCall.submitted] using hsubmit
  | submitSignature kind text =>
    rw [FrontierCall.perform_submitSignature]
    simpa [FrontierCall.submitted] using h.submitAll (Signature.parse kind text).classes
  | next => simpa [FrontierCall.perform, FrontierCall.submitted] using h.next

/-- What a row of calls preserves. -/
theorem performAll (calls : List FrontierCall) :
    (FrontierCall.performAll calls f).2.Accounts probe
      (submitted ++ calls.flatMap FrontierCall.submitted)
      (taken ++ (FrontierCall.performAll calls f).1) := by
  induction calls generalizing f submitted taken with
  | nil => simpa [FrontierCall.performAll] using h
  | cons call calls ih =>
    have hrest := ih (h.perform call)
    rwa [List.append_assoc, List.append_assoc, ← List.flatMap_cons] at hrest

end Accounts

/-- What the frontier and the classes taken from it say about the ids submitted. -/
structure Tells (f : Frontier) (probe : Probe) (submitted : List ClassId)
    (taken : List ClassName) : Prop where
  disjoint (name : ClassName) : ¬ (name ∈ f.internal ∧ name ∈ f.external)
  not_array (name : ClassName) (h : name ∈ f.internal ∨ name ∈ f.external) :
    (ClassId.ofName name).isArray = false
  mem_internal (name : ClassName) : name ∈ f.internal ↔
    (∃ id ∈ submitted, id.base? = some (.ofName name)) ∧ probe.contains (.ofName name) = true
  mem_external (name : ClassName) : name ∈ f.external ↔
    (∃ id ∈ submitted, id.base? = some (.ofName name)) ∧ probe.contains (.ofName name) = false
  /-- Each internal class stands where it was first submitted, and only there. -/
  order_eq : taken ++ f.outstanding =
    ((ClassId.names submitted).filter fun name => probe.contains (.ofName name)).eraseDups
  nodup : (taken ++ f.outstanding).Nodup
  mem_order (name : ClassName) : name ∈ taken ++ f.outstanding ↔ name ∈ f.internal

theorem Accounts.tells (h : f.Accounts probe submitted taken) :
    f.Tells probe submitted taken where
  disjoint name := by
    rw [h.classifies.mem_internal, h.classifies.mem_external]
    rintro ⟨⟨-, haccepted⟩, -, hrejected⟩
    exact hrejected haccepted
  not_array _ _ := rfl
  mem_internal name := by
    rw [h.classifies.mem_internal, ClassId.mem_names_iff_base?]
    rfl
  mem_external name := by
    rw [h.classifies.mem_external, ClassId.mem_names_iff_base?, Bool.not_eq_true]
    rfl
  order_eq := by
    rw [h.taken_append_outstanding, h.classifies.order_eq]
    rfl
  nodup := by
    rw [h.taken_append_outstanding]
    exact h.classifies.nodup_order
  mem_order name := by
    rw [h.taken_append_outstanding]
    exact h.classifies.mem_order name

/-- The two sets show which classes were submitted, and nothing of when or how often. -/
theorem Tells.toList_eq {g : Frontier} {others : List ClassId} {otherTaken : List ClassName}
    (hf : f.Tells probe submitted taken) (hg : g.Tells probe others otherTaken)
    (h : ∀ name, (∃ id ∈ submitted, id.base? = some (.ofName name)) ↔
      ∃ id ∈ others, id.base? = some (.ofName name)) :
    f.internal.toList = g.internal.toList ∧ f.external.toList = g.external.toList := by
  constructor
  · apply Std.TreeSet.Equiv.toList_eq
    apply Std.TreeSet.Equiv.of_forall_mem_iff
    intro name
    rw [hf.mem_internal, hg.mem_internal, h]
  · apply Std.TreeSet.Equiv.toList_eq
    apply Std.TreeSet.Equiv.of_forall_mem_iff
    intro name
    rw [hf.mem_external, hg.mem_external, h]

/-- After any row of calls a new frontier tells of everything that was submitted, and rows
of calls that submit the same classes end with the same two sets. -/
theorem tells_performAll (probe : Probe) (calls : List FrontierCall) :
    (FrontierCall.performAll calls { probe }).2.Tells probe
        (calls.flatMap FrontierCall.submitted) (FrontierCall.performAll calls { probe }).1 ∧
      ∀ others : List FrontierCall,
        (∀ name, (∃ id ∈ calls.flatMap FrontierCall.submitted, id.base? = some (.ofName name)) ↔
          ∃ id ∈ others.flatMap FrontierCall.submitted, id.base? = some (.ofName name)) →
        (FrontierCall.performAll calls { probe }).2.internal.toList =
            (FrontierCall.performAll others { probe }).2.internal.toList ∧
          (FrontierCall.performAll calls { probe }).2.external.toList =
            (FrontierCall.performAll others { probe }).2.external.toList := by
  have htells (row : List FrontierCall) := ((accounts_empty probe).performAll row).tells
  refine ⟨htells calls, fun others h => ?_⟩
  exact (htells calls).toList_eq (htells others) h

/-- An array of `A` is taken before `A` comes again, `B` is met in a signature with a fault. -/
theorem tells_performAll_array :
    let a := ClassName.ofText "A"
    let b := ClassName.ofText "B"
    let probe := Probe.ofIds [.ofName a]
    let calls := [.submit (.object 2 a), .next, .submit (.primitive 0 .int), .submit (.ofName a),
      .submitSignature .ofType "LB;;"]
    let others := [FrontierCall.submit (.ofName b), .submit (.ofName a)]
    (∀ name, (∃ id ∈ calls.flatMap FrontierCall.submitted, id.base? = some (.ofName name)) ↔
        ∃ id ∈ others.flatMap FrontierCall.submitted, id.base? = some (.ofName name)) ∧
      (FrontierCall.performAll calls { probe }).2.internal.toList =
        (FrontierCall.performAll others { probe }).2.internal.toList := by
  intro a b probe calls others
  have hparsed : (Signature.parse .ofType "LB;;").classes = [.ofName b] := by decide +kernel
  have hsame : ∀ name,
      (∃ id ∈ calls.flatMap FrontierCall.submitted, id.base? = some (.ofName name)) ↔
        ∃ id ∈ others.flatMap FrontierCall.submitted, id.base? = some (.ofName name) := by
    intro name
    simp [calls, others, FrontierCall.submitted, hparsed, ClassId.base?, ClassId.className?,
      or_comm]
  exact ⟨hsame, ((tells_performAll probe calls).2 others hsame).1⟩

end Frontier

end ClassAtlas
