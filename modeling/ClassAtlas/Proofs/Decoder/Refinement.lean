import ClassAtlas.Proofs.Decoder.Locality
import ClassAtlas.Proofs.Decoder.Outcome

/-!
# Decoders that answer more

`Refines d d'` says that whatever `d` answers, `d'` answers too, with the same bytes taken.
Decoders put together in the same way from parts that answer more answer more themselves.
-/

namespace ClassAtlas

variable {α β : Type}

def Refines (d d' : Decoder α) : Prop :=
  ∀ start a stop, d start = .ok a stop → d' start = .ok a stop

namespace Refines

theorem refl (d : Decoder α) : Refines d d :=
  fun _ _ _ h => h

theorem bind {d d' : Decoder α} {f f' : α → Decoder β} (hd : Refines d d')
    (hf : ∀ a, Refines (f a) (f' a)) : Refines (d >>= f) (d' >>= f') := by
  intro start b stop h
  obtain ⟨a, middle, ha, hb⟩ := Decoder.bind_eq_ok h
  change EStateM.bind d' f' start = _
  rw [EStateM.bind, hd start a middle ha]
  exact hf a middle b stop hb

theorem next {d : Decoder α} {f f' : α → Decoder β} (hf : ∀ a, Refines (f a) (f' a)) :
    Refines (d >>= f) (d >>= f') :=
  (refl d).bind hf

theorem first {d d' : Decoder α} (hd : Refines d d') (f : α → Decoder β) :
    Refines (d >>= f) (d' >>= f) :=
  hd.bind fun a => refl (f a)

theorem ofExcept {e e' : Except Error α} (h : ∀ a, e = .ok a → e' = .ok a) :
    Refines (Decoder.ofExcept e) (Decoder.ofExcept e') := by
  intro start a stop hd
  cases e with
  | ok b => rwa [h b rfl]
  | error e => contradiction

theorem iterate {step step' : α → Decoder α} (h : ∀ a, Refines (step a) (step' a)) (count : Nat)
    (a : α) : Refines (Decoder.iterate step count a) (Decoder.iterate step' count a) := by
  induction count generalizing a with
  | zero => exact refl _
  | succ count ih => exact (h a).bind ih

theorem replicate {item item' : Decoder α} (h : Refines item item') (count : Nat) :
    Refines (Decoder.replicate count item) (Decoder.replicate count item') :=
  (iterate (fun _ => h.first _) count []).first _

theorem counted {item item' : Decoder α} (h : Refines item item') :
    Refines (Decoder.counted item) (Decoder.counted item') :=
  next fun count => h.replicate count.toNat

theorem alone {d d' : Decoder α} (h : Refines d d') {bytes : List UInt8} {a : α}
    (ha : d.alone bytes = .ok a) : d'.alone bytes = .ok a := by
  obtain ⟨stop, hd⟩ := Decoder.alone_eq_ok_iff.1 ha
  exact Decoder.alone_eq_ok_iff.2 ⟨stop, h _ _ _ hd⟩

end Refines

end ClassAtlas
