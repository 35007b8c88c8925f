import ClassAtlas.Proofs.Frontier.Classification

/-!
# Submissions in a row

Submissions are made one after another until the first with a fault, whose classes before
the fault are still handed over. `Submission.classes` lists all classes handed over on the
way, so a frontier that takes the submissions ends where submitting those classes ends.
-/

namespace ClassAtlas

namespace Submission

/-- The submissions that are made, the first one with a fault being the last. -/
def made : List Submission → List Submission
  | [] => []
  | s :: rest => if s.outcome.error.isSome then [s] else s :: made rest

/-- The fault that ends a row of submissions, if any does. -/
def fault? (submissions : List Submission) : Option Error :=
  submissions.findSome? (·.outcome.error)

/-- The classes that a row of submissions hands over, in order. -/
def classes (submissions : List Submission) : List ClassId :=
  (made submissions).flatMap (·.outcome.classes)

theorem fault?_eq_none_iff {submissions : List Submission} :
    fault? submissions = none ↔ ∀ s ∈ submissions, s.outcome.error = none := by
  simp [fault?]

/-- Without a fault every submission is made. -/
theorem classes_of_fault?_eq_none {submissions : List Submission}
    (h : fault? submissions = none) :
    classes submissions = submissions.flatMap (·.outcome.classes) := by
  rw [fault?_eq_none_iff] at h
  have hmade : made submissions = submissions := by
    induction submissions with
    | nil => rfl
    | cons s rest ih =>
      have hs := h s (by simp)
      simp [made, hs, ih fun r hr => h r (by simp [hr])]
  rw [classes, hmade]

theorem fault?_append {before after : List Submission} (h : fault? before = none) :
    fault? (before ++ after) = fault? after := by
  unfold fault? at h ⊢
  rw [List.findSome?_append, h, Option.none_or]

theorem made_append {before after : List Submission} (h : fault? before = none) :
    made (before ++ after) = before ++ made after := by
  rw [fault?_eq_none_iff] at h
  induction before with
  | nil => rfl
  | cons s rest ih =>
    have hs := h s (by simp)
    simp [made, hs, ih fun r hr => h r (by simp [hr])]

theorem classes_append {before after : List Submission} (h : fault? before = none) :
    classes (before ++ after) = before.flatMap (·.outcome.classes) ++ classes after := by
  rw [classes, made_append h, List.flatMap_append, classes]

/-- A fault is that of the first submission that has one, whose classes are handed over last. -/
theorem exists_of_fault?_eq_some {submissions : List Submission} {e : Error}
    (h : fault? submissions = some e) :
    ∃ earlier failing later, submissions = earlier ++ failing :: later ∧
      fault? earlier = none ∧ failing.outcome.error = some e ∧
      classes submissions = earlier.flatMap (·.outcome.classes) ++ failing.outcome.classes := by
  obtain ⟨earlier, failing, later, rfl, hfailing, hearlier⟩ := List.findSome?_eq_some_iff.1 h
  have hnone : fault? earlier = none := fault?_eq_none_iff.2 hearlier
  refine ⟨earlier, failing, later, rfl, hnone, hfailing, ?_⟩
  rw [classes_append hnone, classes]
  simp [made, hfailing]

end Submission

namespace Frontier

theorem accept_eq (s : Submission) (f : Frontier) :
    (ClassSink.accept s : EStateM Error Frontier Unit) f =
      match s.outcome.error with
      | none => .ok () (f.submitAll s.outcome.classes)
      | some e => .error e (f.submitAll s.outcome.classes) := rfl

/-- A row of submissions hands over its classes and ends in its first fault. -/
theorem forM_accept (submissions : List Submission) (f : Frontier) :
    (submissions.forM ClassSink.accept : EStateM Error Frontier Unit) f =
      match Submission.fault? submissions with
      | none => .ok () (f.submitAll (Submission.classes submissions))
      | some e => .error e (f.submitAll (Submission.classes submissions)) := by
  induction submissions generalizing f with
  | nil => rfl
  | cons s rest ih =>
    change EStateM.bind (ClassSink.accept s) (fun _ => rest.forM ClassSink.accept) f = _
    rw [EStateM.bind, accept_eq]
    cases hs : s.outcome.error with
    | none =>
      simp only [ih, Submission.fault?, Submission.classes, Submission.made, hs,
        List.findSome?_cons, Option.isSome_none, Bool.false_eq_true, if_false,
        List.flatMap_cons, submitAll_append]
    | some e =>
      simp [Submission.fault?, Submission.classes, Submission.made, hs]

end Frontier

end ClassAtlas
