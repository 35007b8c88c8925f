import ClassAtlas.Proofs.Decoder.Locality

/-!
# What decoders can answer

`Answers d P` says that every answer of `d` has the property `P`, whatever bytes it was decoded
from. What each step of a repetition keeps is true of the answer of the repetition.
-/

namespace ClassAtlas

variable {α β : Type}

def Answers (d : Decoder α) (P : α → Prop) : Prop :=
  ∀ start a stop, d start = .ok a stop → P a

namespace Answers

theorem mono {d : Decoder α} {P Q : α → Prop} (h : Answers d P) (hPQ : ∀ a, P a → Q a) :
    Answers d Q :=
  fun start a stop hd => hPQ a (h start a stop hd)

theorem pure {P : α → Prop} {a : α} (h : P a) : Answers (Pure.pure a) P := by
  intro start b stop hb
  rw [(Decoder.pure_eq_ok hb).1]
  exact h

theorem throw (e : Error) (P : α → Prop) : Answers (MonadExcept.throw e : Decoder α) P := by
  intro start a stop h
  contradiction

theorem bind {d : Decoder α} {f : α → Decoder β} {P : α → Prop} {Q : β → Prop} (hd : Answers d P)
    (hf : ∀ a, P a → Answers (f a) Q) : Answers (d >>= f) Q := by
  intro start b stop h
  obtain ⟨a, middle, ha, hb⟩ := Decoder.bind_eq_ok h
  exact hf a (hd start a middle ha) middle b stop hb

theorem after {d : Decoder α} {f : α → Decoder β} {Q : β → Prop} (hf : ∀ a, Answers (f a) Q) :
    Answers (d >>= f) Q :=
  bind (P := fun _ => True) (fun _ _ _ _ => trivial) fun a _ => hf a

theorem map {d : Decoder α} {P : α → Prop} {Q : β → Prop} (hd : Answers d P) (f : α → β)
    (hf : ∀ a, P a → Q (f a)) : Answers (do return f (← d)) Q :=
  hd.bind fun a ha => pure (hf a ha)

theorem and {d : Decoder α} {P Q : α → Prop} (hP : Answers d P) (hQ : Answers d Q) :
    Answers d fun a => P a ∧ Q a :=
  fun start a stop hd => ⟨hP start a stop hd, hQ start a stop hd⟩

theorem ofExcept (e : Except Error α) : Answers (Decoder.ofExcept e) fun a => e = .ok a := by
  cases e with
  | ok a => exact pure rfl
  | error e => exact throw e _

theorem within {body : Decoder α} {P : α → Prop} (h : Answers body P) (length : Nat) :
    Answers (Decoder.within length body) P := by
  refine after fun bytes => ?_
  split
  · next a stop hbody => exact pure (h _ _ _ hbody)
  · exact throw _ P

theorem iterate {step : α → Decoder α} {P : α → Prop} (h : ∀ a, P a → Answers (step a) P)
    (count : Nat) {a : α} (ha : P a) : Answers (Decoder.iterate step count a) P := by
  induction count generalizing a with
  | zero => exact pure ha
  | succ count ih => exact (h a ha).bind fun next hnext => ih hnext

theorem replicate {item : Decoder α} {P : α → Prop} (h : Answers item P) (count : Nat) :
    Answers (Decoder.replicate count item) fun items => ∀ a ∈ items, P a := by
  have hstep (items : List α) (hitems : ∀ a ∈ items, P a) :
      Answers (do return (← item) :: items) fun items => ∀ a ∈ items, P a :=
    h.map (· :: items) fun a ha => List.forall_mem_cons.2 ⟨ha, hitems⟩
  refine (iterate hstep count (List.forall_mem_nil _)).map List.reverse ?_
  exact fun items hitems a ha => hitems a (List.mem_reverse.1 ha)

theorem length_replicate (item : Decoder α) (count : Nat) :
    Answers (Decoder.replicate count item) (·.length = count) := by
  have hlength (count : Nat) (seen : List α) :
      Answers (Decoder.iterate (fun seen => return (← item) :: seen) count seen)
        (·.length = seen.length + count) := by
    induction count generalizing seen with
    | zero => exact pure rfl
    | succ count ih =>
      refine bind (P := fun next => next.length = seen.length + 1)
        (after fun a => pure (List.length_cons ..)) fun next hnext => (ih next).mono ?_
      intro items hitems
      omega
  refine (hlength count []).map List.reverse fun items hitems => ?_
  rw [List.length_reverse, hitems, List.length_nil, Nat.zero_add]

theorem length_counted (item : Decoder α) :
    Answers (Decoder.counted item) (·.length < 65536) :=
  after fun count => (length_replicate item count.toNat).mono fun _ h => h ▸ count.toNat_lt

theorem counted {item : Decoder α} {P : α → Prop} (h : Answers item P) :
    Answers (Decoder.counted item) fun items => ∀ a ∈ items, P a :=
  after fun count => h.replicate count.toNat

end Answers

end ClassAtlas
