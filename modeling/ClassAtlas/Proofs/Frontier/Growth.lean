import ClassAtlas.Proofs.Frontier.Classification

/-!
# Growth of a frontier

What submitting ids does to a frontier in any state, also in one that no history accounts
for. The probe tells the new classes apart, a class that is known already leaves no mark, and
the queue only grows at its end. A frontier therefore knows every class that was submitted
to it, and submitting the same ids again changes nothing, however many classes were taken in
between.
-/

namespace ClassAtlas

namespace Frontier

variable {f : Frontier} {ids : List ClassId} {name : ClassName}

/-- Whether a class has been told apart. -/
def Knows (f : Frontier) (name : ClassName) : Prop :=
  name ∈ f.internal ∨ name ∈ f.external

@[simp] theorem submitAll_cons (f : Frontier) (id : ClassId) (ids : List ClassId) :
    f.submitAll (id :: ids) = (f.submit id).submitAll ids := rfl

@[simp] theorem probe_submit (f : Frontier) (id : ClassId) : (f.submit id).probe = f.probe := by
  unfold submit meet
  split
  · rfl
  · split
    · rfl
    · split <;> rfl

theorem mem_internal_submit {id : ClassId} :
    name ∈ (f.submit id).internal ↔ name ∈ f.internal ∨
      id.className? = some name ∧ f.probe.accepts name ∧ name ∉ f.external := by
  unfold submit
  cases hid : id.className? with
  | none => simp
  | some met =>
    rw [mem_internal_meet, Option.some.injEq, eq_comm (a := name)]
    unfold Probe.accepts
    grind

theorem mem_external_submit {id : ClassId} :
    name ∈ (f.submit id).external ↔ name ∈ f.external ∨
      id.className? = some name ∧ ¬ f.probe.accepts name ∧ name ∉ f.internal := by
  unfold submit
  cases hid : id.className? with
  | none => simp
  | some met =>
    rw [mem_external_meet, Option.some.injEq, eq_comm (a := name)]
    unfold Probe.accepts
    grind

/-- The internal classes grow by the classes submitted that the probe accepts, less those
that count as external already. -/
theorem mem_internal_submitAll :
    name ∈ (f.submitAll ids).internal ↔ name ∈ f.internal ∨
      name ∈ ClassId.names ids ∧ f.probe.accepts name ∧ name ∉ f.external := by
  induction ids generalizing f with
  | nil => simp [ClassId.names]
  | cons id ids ih =>
    rw [submitAll_cons, ih, mem_internal_submit, mem_external_submit, probe_submit]
    simp only [ClassId.mem_names, List.mem_cons]
    grind

theorem mem_external_submitAll :
    name ∈ (f.submitAll ids).external ↔ name ∈ f.external ∨
      name ∈ ClassId.names ids ∧ ¬ f.probe.accepts name ∧ name ∉ f.internal := by
  induction ids generalizing f with
  | nil => simp [ClassId.names]
  | cons id ids ih =>
    rw [submitAll_cons, ih, mem_internal_submit, mem_external_submit, probe_submit]
    simp only [ClassId.mem_names, List.mem_cons]
    grind

theorem knows_submitAll :
    (f.submitAll ids).Knows name ↔ f.Knows name ∨ name ∈ ClassId.names ids := by
  unfold Knows
  rw [mem_internal_submitAll, mem_external_submitAll]
  grind

theorem outstanding_submitAll_prefix (f : Frontier) (ids : List ClassId) :
    f.outstanding <+: (f.submitAll ids).outstanding := by
  obtain ⟨added, hadded⟩ := f.order_submitAll_prefix ids
  unfold outstanding
  rw [taken_submitAll, ← hadded, List.drop_append]
  exact List.prefix_append _ _

theorem submit_of_knows {id : ClassId} (h : ∀ name, id.className? = some name → f.Knows name) :
    f.submit id = f := by
  unfold submit
  cases hid : id.className? with
  | none => rfl
  | some name =>
    have hknown : (f.external.contains name || f.internal.contains name) = true := by
      rw [Bool.or_eq_true, Std.TreeSet.contains_iff_mem, Std.TreeSet.contains_iff_mem, or_comm]
      exact h name hid
    exact if_pos hknown

/-- Classes that are known leave no mark. -/
theorem submitAll_of_knows (h : ∀ name ∈ ClassId.names ids, f.Knows name) :
    f.submitAll ids = f := by
  induction ids with
  | nil => rfl
  | cons id ids ih =>
    have hid : f.submit id = f :=
      submit_of_knows fun name hname => h name (ClassId.mem_names.2 ⟨id, by simp, hname⟩)
    rw [submitAll_cons, hid]
    apply ih
    intro name hname
    obtain ⟨other, hother, hbase⟩ := ClassId.mem_names.1 hname
    exact h name (ClassId.mem_names.2 ⟨other, by simp [hother], hbase⟩)

/-- The frontier behind so many calls for the next class. -/
def advance : Nat → Frontier → Frontier
  | 0, f => f
  | calls + 1, f => advance calls f.next.2

theorem knows_next (f : Frontier) (name : ClassName) : f.next.2.Knows name ↔ f.Knows name := by
  unfold next
  split <;> rfl

theorem knows_advance (calls : Nat) (f : Frontier) (name : ClassName) :
    (f.advance calls).Knows name ↔ f.Knows name := by
  induction calls generalizing f with
  | zero => rfl
  | succ calls ih => exact (ih f.next.2).trans (f.knows_next name)

/-- What was submitted once leaves no mark when it is submitted again, whatever was taken in
between. -/
theorem submitAll_advance_submitAll (calls : Nat) (f : Frontier) (ids : List ClassId) :
    ((f.submitAll ids).advance calls).submitAll ids = (f.submitAll ids).advance calls := by
  apply submitAll_of_knows
  intro name hname
  rw [knows_advance, knows_submitAll]
  exact Or.inr hname

end Frontier

end ClassAtlas
