import ClassAtlas.Signature.Parser

/-!
# Submissions

A class or a signature handed to something that collects classes. A sink only has to say
what it does with a class; a signature is then parsed and its classes are handed over one
by one, those before a fault included. A `Recording` keeps submissions as they are, and
so never fails; faults come up when it is replayed into another sink.
-/

namespace ClassAtlas

inductive Submission where
  | single (id : ClassId)
  | signature (kind : SignatureKind) (text : String)
deriving DecidableEq

/-- What a submission stands for: the classes it names, and the fault behind them. -/
def Submission.outcome : Submission → Signature.Outcome
  | single id => ⟨[id], none⟩
  | signature kind text => Signature.parse kind text

/-- Something that takes classes and signatures. A failure keeps the state. -/
class ClassSink (σ : Type) where
  submit : ClassId → σ → σ
  accept : Submission → EStateM Error σ Unit := fun submission sink =>
    let outcome := submission.outcome
    let sink := outcome.classes.foldl (fun sink id => submit id sink) sink
    match outcome.error with
    | none => .ok () sink
    | some e => .error e sink

structure Recording where
  submissions : Array Submission := #[]

namespace Recording

instance : ClassSink Recording where
  submit id r := ⟨r.submissions.push (.single id)⟩
  accept submission r := .ok () ⟨r.submissions.push submission⟩

/-- Makes the recorded submissions to another sink, up to the first that fails. -/
def replay {σ : Type} [ClassSink σ] (r : Recording) : EStateM Error σ Unit :=
  r.submissions.toList.forM ClassSink.accept

end Recording

end ClassAtlas
