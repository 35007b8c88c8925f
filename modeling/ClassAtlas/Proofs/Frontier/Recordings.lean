import ClassAtlas.Proofs.Frontier.Growth
import ClassAtlas.Proofs.Frontier.Submissions

/-!
# Recordings

A recording takes every submission as it is, and replaying it into another recording makes a
copy. Replaying it into a frontier comes to what the calls come to when they are made on the
frontier itself: the same fault or none, and the same classes, those of the failing signature
before its fault included. What a replay hands over depends on the recording alone and is
known afterwards, so a second replay answers as the first one did and changes nothing.
-/

namespace ClassAtlas

/-- The call on a sink that makes a submission: a class is handed over as it is, a signature
as its text. -/
def ClassSink.call {σ : Type} [ClassSink σ] : Submission → EStateM Error σ Unit
  | .single id => modify (ClassSink.submit id)
  | .signature kind text => ClassSink.accept (.signature kind text)

/-- What a row of calls answers: the fault that ended it, if any did, and the state behind it. -/
def ClassSink.ended {σ : Type} (fault : Option Error) (sink : σ) : EStateM.Result Error σ Unit :=
  match fault with
  | none => .ok () sink
  | some e => .error e sink

/-- A sink that takes a class in the same way, whether it is handed over or accepted, takes a
row of calls like the submissions that they make. -/
theorem ClassSink.forM_call_eq {σ : Type} [ClassSink σ]
    (hsingle : ∀ id, (accept (.single id) : EStateM Error σ Unit) = modify (submit id))
    (submissions : List Submission) :
    (submissions.forM call : EStateM Error σ Unit) = submissions.forM accept := by
  have hcall : (call : Submission → EStateM Error σ Unit) = accept := by
    funext s
    cases s with
    | single id => exact (hsingle id).symm
    | signature kind text => rfl
  rw [hcall]

theorem Frontier.forM_call (submissions : List Submission) (f : Frontier) :
    (submissions.forM ClassSink.call : EStateM Error Frontier Unit) f =
      ClassSink.ended (Submission.fault? submissions)
        (f.submitAll (Submission.classes submissions)) := by
  rw [ClassSink.forM_call_eq fun _ => rfl, forM_accept]
  cases Submission.fault? submissions <;> rfl

namespace Recording

open ClassSink

def ofSubmissions (submissions : List Submission) : Recording :=
  ⟨submissions.toArray⟩

/-- Recording never fails, and adds the submissions behind those recorded before. -/
theorem forM_accept (submissions : List Submission) (r : Recording) :
    (submissions.forM accept : EStateM Error Recording Unit) r =
      .ok () ⟨r.submissions ++ submissions.toArray⟩ := by
  induction submissions generalizing r with
  | nil => simp [EStateM.pure, pure]
  | cons s rest ih =>
    change EStateM.bind (accept s) (fun _ => rest.forM accept) r = _
    have hone : (accept s : EStateM Error Recording Unit) r = .ok () ⟨r.submissions.push s⟩ := rfl
    rw [EStateM.bind, hone]
    dsimp only
    rw [ih]
    simp

theorem forM_call (submissions : List Submission) (r : Recording) :
    (submissions.forM call : EStateM Error Recording Unit) r =
      .ok () ⟨r.submissions ++ submissions.toArray⟩ := by
  rw [forM_call_eq fun _ => rfl, forM_accept]

/-- Replaying into a frontier comes to what the calls come to. -/
theorem replay_ofSubmissions (submissions : List Submission) (f : Frontier) :
    (ofSubmissions submissions).replay f =
      ended (Submission.fault? submissions) (f.submitAll (Submission.classes submissions)) := by
  have hreplay : (ofSubmissions submissions).replay f =
      (submissions.forM accept : EStateM Error Frontier Unit) f := rfl
  rw [hreplay, Frontier.forM_accept]
  cases Submission.fault? submissions <;> rfl

/-- Recording a row of submissions never fails. Its replay into a frontier is the same as
making the calls on that frontier up to the first fault, its replay into an empty recording
is a copy, and a second replay into the frontier, after any number of calls for the next
class, gives the same answer and changes nothing. -/
theorem replay_agrees (submissions : List Submission) :
    (∀ r : Recording, (submissions.forM call : EStateM Error Recording Unit).run r =
      .ok () ⟨r.submissions ++ submissions.toArray⟩) ∧
    (submissions.forM call : EStateM Error Recording Unit).run {} =
      .ok () (ofSubmissions submissions) ∧
    ((ofSubmissions submissions).replay : EStateM Error Recording Unit).run {} =
      .ok () (ofSubmissions submissions) ∧
    ∀ f : Frontier,
      let fault := Submission.fault? submissions
      let g := f.submitAll (Submission.classes submissions)
      (submissions.forM call : EStateM Error Frontier Unit).run f = ended fault g ∧
      (ofSubmissions submissions).replay.run f = ended fault g ∧
      ∀ calls, (ofSubmissions submissions).replay.run (g.advance calls) =
        ended fault (g.advance calls) := by
  have hempty : (⟨#[] ++ submissions.toArray⟩ : Recording) = ofSubmissions submissions := by
    simp [ofSubmissions]
  refine ⟨forM_call submissions, ?_, ?_, fun f => ⟨?_, ?_, fun calls => ?_⟩⟩
  · exact (forM_call submissions {}).trans (congrArg _ hempty)
  · exact (forM_accept submissions {}).trans (congrArg _ hempty)
  · exact Frontier.forM_call submissions f
  · exact replay_ofSubmissions submissions f
  · rw [EStateM.run, replay_ofSubmissions, Frontier.submitAll_advance_submitAll]

end Recording

end ClassAtlas
