import ClassAtlas.Frontier

/-!
# What a frontier knows

A frontier is determined by its probe and the names it has met, in the order in which it
met them. `Classifies` says how: internal and external classes are the names met on either
side of the probe, and the order lists the internal ones at their first occurrence. Every
way of submitting classes adds names to those met, whatever is already known.
-/

namespace ClassAtlas

/-- Whether a probe counts a class to the tree. -/
def Probe.accepts (probe : Probe) (name : ClassName) : Bool :=
  probe.contains (.ofName name)

/-- The classes at the bottom of ids. -/
def ClassId.names (ids : List ClassId) : List ClassName :=
  ids.filterMap ClassId.className?

@[simp] theorem ClassId.names_append (ids more : List ClassId) :
    names (ids ++ more) = names ids ++ names more :=
  List.filterMap_append

theorem ClassId.mem_names {ids : List ClassId} {name : ClassName} :
    name ∈ names ids ↔ ∃ id ∈ ids, id.className? = some name :=
  List.mem_filterMap

theorem nodup_eraseDups {α : Type} [BEq α] [LawfulBEq α] (l : List α) : l.eraseDups.Nodup := by
  match l with
  | [] => simp
  | a :: rest =>
    rw [List.eraseDups_cons, List.nodup_cons]
    have := nodup_eraseDups (rest.filter fun b => !b == a)
    simpa using this
termination_by l.length
decreasing_by exact Nat.lt_succ_of_le (List.length_filter_le _ _)

theorem eraseDups_append_singleton {α : Type} [BEq α] [LawfulBEq α] {l : List α} {a : α} :
    (l ++ [a]).eraseDups = if a ∈ l then l.eraseDups else l.eraseDups ++ [a] := by
  rw [List.eraseDups_append]
  by_cases h : a ∈ l <;> simp [List.removeAll, List.eraseDups_cons, h]

namespace Frontier

variable {f : Frontier} {probe : Probe} {met : List ClassName}

/-- The frontier knows exactly the names met, in this order, as the probe tells them apart. -/
structure Classifies (f : Frontier) (probe : Probe) (met : List ClassName) : Prop where
  probe_eq : f.probe = probe
  order_eq : f.order.toList = (met.filter probe.accepts).eraseDups
  mem_internal (name : ClassName) : name ∈ f.internal ↔ name ∈ met ∧ probe.accepts name
  mem_external (name : ClassName) : name ∈ f.external ↔ name ∈ met ∧ ¬ probe.accepts name

theorem classifies_empty (probe : Probe) : Classifies { probe } probe [] where
  probe_eq := rfl
  order_eq := rfl
  mem_internal := by simp
  mem_external := by simp

namespace Classifies

variable (h : f.Classifies probe met)
include h

theorem known_iff (name : ClassName) : name ∈ f.internal ∨ name ∈ f.external ↔ name ∈ met := by
  rw [h.mem_internal, h.mem_external, ← and_or_left]
  exact and_iff_left (Decidable.em _)

theorem mem_order (name : ClassName) : name ∈ f.order.toList ↔ name ∈ f.internal := by
  rw [h.order_eq, h.mem_internal]
  simp

theorem nodup_order : f.order.toList.Nodup := by
  rw [h.order_eq]
  exact nodup_eraseDups _

theorem size_internal : f.internal.size = f.order.size := by
  have hperm : f.internal.toList.Perm f.order.toList := by
    have hnodup : f.internal.toList.Nodup :=
      Std.TreeSet.distinct_toList.imp fun hne heq => hne (Std.compare_eq_iff_eq.2 heq)
    rw [List.perm_ext_iff_of_nodup hnodup h.nodup_order]
    intro name
    rw [Std.TreeSet.mem_toList, h.mem_order]
  simpa using hperm.length_eq

theorem order_meet (name : ClassName) :
    (f.meet name).order.toList = ((met ++ [name]).filter probe.accepts).eraseDups := by
  have hknown : (f.external.contains name || f.internal.contains name) = true ↔ name ∈ met := by
    rw [Bool.or_eq_true, Std.TreeSet.contains_iff_mem, Std.TreeSet.contains_iff_mem, or_comm,
      h.known_iff]
  have hkept (ha : probe.accepts name) :
      (met ++ [name]).filter probe.accepts = met.filter probe.accepts ++ [name] := by
    rw [List.filter_append, List.filter_cons_of_pos ha, List.filter_nil]
  unfold meet
  split
  · next hseen =>
    rw [hknown] at hseen
    rw [h.order_eq]
    by_cases ha : probe.accepts name
    · rw [hkept ha, eraseDups_append_singleton, if_pos (by simp [hseen, ha])]
    · simp [ha]
  · next hseen =>
    rw [hknown] at hseen
    rw [h.probe_eq]
    split
    · next ha =>
      rw [hkept ha, eraseDups_append_singleton, if_neg (by simp [hseen]), ← h.order_eq,
        Array.toList_push]
    · next ha =>
      have ha : ¬ probe.accepts name := ha
      simp [ha, h.order_eq]

theorem probe_meet (name : ClassName) : (f.meet name).probe = probe := by
  unfold meet
  split
  · exact h.probe_eq
  · split <;> exact h.probe_eq

theorem meet (name : ClassName) : (f.meet name).Classifies probe (met ++ [name]) where
  probe_eq := h.probe_meet name
  order_eq := h.order_meet name
  mem_internal := by
    intro other
    have hin := h.mem_internal other
    have hex := h.mem_external name
    have ha : f.probe.contains (.ofName name) = probe.accepts name := by rw [h.probe_eq]; rfl
    rw [mem_internal_meet, ha]
    grind
  mem_external := by
    intro other
    have hex := h.mem_external other
    have hin := h.mem_internal name
    have ha : f.probe.contains (.ofName name) = probe.accepts name := by rw [h.probe_eq]; rfl
    rw [mem_external_meet, ha]
    grind

theorem submit (id : ClassId) : (f.submit id).Classifies probe (met ++ ClassId.names [id]) := by
  unfold Frontier.submit
  cases hid : id.className? with
  | none => simpa [ClassId.names, hid] using h
  | some name => simpa [ClassId.names, hid] using h.meet name

end Classifies

def submitAll (f : Frontier) (ids : List ClassId) : Frontier :=
  ids.foldl (fun f id => f.submit id) f

@[simp] theorem submitAll_nil (f : Frontier) : f.submitAll [] = f := rfl

theorem submitAll_append (f : Frontier) (ids more : List ClassId) :
    f.submitAll (ids ++ more) = (f.submitAll ids).submitAll more :=
  List.foldl_append

theorem Classifies.submitAll (h : f.Classifies probe met) (ids : List ClassId) :
    (f.submitAll ids).Classifies probe (met ++ ClassId.names ids) := by
  induction ids generalizing f met with
  | nil => simpa [ClassId.names] using h
  | cons id ids ih =>
    have := ih (h.submit id)
    rwa [List.append_assoc, ← ClassId.names_append] at this

@[simp] theorem taken_submit (f : Frontier) (id : ClassId) : (f.submit id).taken = f.taken := by
  unfold submit
  split
  · rfl
  · unfold Frontier.meet
    split
    · rfl
    · split <;> rfl

@[simp] theorem taken_submitAll (f : Frontier) (ids : List ClassId) :
    (f.submitAll ids).taken = f.taken := by
  induction ids generalizing f with
  | nil => rfl
  | cons id ids ih => exact (ih (f.submit id)).trans (taken_submit f id)

theorem order_submit_prefix (f : Frontier) (id : ClassId) :
    f.order.toList <+: (f.submit id).order.toList := by
  unfold submit
  split
  · exact List.prefix_rfl
  · unfold Frontier.meet
    split
    · exact List.prefix_rfl
    · split
      · simp
      · exact List.prefix_rfl

theorem order_submitAll_prefix (f : Frontier) (ids : List ClassId) :
    f.order.toList <+: (f.submitAll ids).order.toList := by
  induction ids generalizing f with
  | nil => exact List.prefix_rfl
  | cons id ids ih => exact (f.order_submit_prefix id).trans (ih (f.submit id))

/-- Taking a class changes nothing that is known. -/
theorem Classifies.taken (h : f.Classifies probe met) (taken : Nat) :
    Classifies { f with taken } probe met where
  probe_eq := h.probe_eq
  order_eq := h.order_eq
  mem_internal := h.mem_internal
  mem_external := h.mem_external

end Frontier

end ClassAtlas
