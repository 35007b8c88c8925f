import Mathlib.Data.List.Basic
import ClassAtlas.Proofs.Decoder.Decoding

/-!
# Outcomes of decoding

What was laid out need not make sense. `Yields d bytes outcome` says what `d` comes to on
whatever starts with `bytes`: an answer for which it takes exactly these bytes, or an error.
Where a layout fixes the bytes of every part, the outcome of a decoder on it is worked out
from those of its parts, and no byte is looked at any more.
-/

namespace ClassAtlas

variable {α β ι : Type}

def Yields (d : Decoder α) (bytes : List UInt8) (outcome : Except Error α) : Prop :=
  ∀ offset rest, match outcome with
    | .ok a => d ⟨offset, bytes ++ rest⟩ = .ok a ⟨offset + bytes.length, rest⟩
    | .error e => ∃ c, d ⟨offset, bytes ++ rest⟩ = .error e c

/-- The outcome of a decoder on a byte string of its own. -/
def Decoder.alone (d : Decoder α) (bytes : List UInt8) : Except Error α :=
  match d.run (.start bytes) with
  | .ok a _ => .ok a
  | .error e _ => .error e

theorem Decoder.alone_eq_ok_iff {d : Decoder α} {bytes : List UInt8} {a : α} :
    d.alone bytes = .ok a ↔ ∃ stop, d (.start bytes) = .ok a stop := by
  rw [alone, EStateM.run]
  cases d (.start bytes) with
  | ok b stop => simp
  | error e stop => simp

theorem Decodes.yields {d : Decoder α} {bytes : List UInt8} {a : α} (h : Decodes d bytes a) :
    Yields d bytes (.ok a) :=
  h

namespace Yields

theorem decodes {d : Decoder α} {bytes : List UInt8} {a : α} (h : Yields d bytes (.ok a)) :
    Decodes d bytes a :=
  h

theorem eq_ok_iff {d : Decoder α} {bytes rest : List UInt8} {outcome : Except Error α}
    (h : Yields d bytes outcome) {offset : Nat} {a : α} {stop : Cursor} :
    d ⟨offset, bytes ++ rest⟩ = .ok a stop ↔
      outcome = .ok a ∧ stop = ⟨offset + bytes.length, rest⟩ := by
  have hd := h offset rest
  cases outcome with
  | ok b =>
    dsimp only at hd
    rw [hd]
    simp [eq_comm]
  | error e =>
    obtain ⟨c, hc⟩ := hd
    rw [hc]
    simp

theorem alone_eq {d : Decoder α} {bytes : List UInt8} {outcome : Except Error α}
    (h : Yields d bytes outcome) (rest : List UInt8) : d.alone (bytes ++ rest) = outcome := by
  have hd := h 0 rest
  rw [Decoder.alone, EStateM.run, Cursor.start]
  cases outcome with
  | ok a =>
    dsimp only at hd
    rw [hd]
  | error e =>
    obtain ⟨c, hc⟩ := hd
    rw [hc]

theorem pure (a : α) : Yields (Pure.pure a) [] (.ok a) :=
  (Decodes.pure a).yields

theorem ofExcept (e : Except Error α) : Yields (Decoder.ofExcept e) [] e := by
  cases e with
  | ok a => exact pure a
  | error e => exact fun offset rest => ⟨⟨offset, rest⟩, rfl⟩

theorem bind {d : Decoder α} {f : α → Decoder β} {bytes more : List UInt8}
    {outcome : Except Error α} {next : α → Except Error β} (hd : Yields d bytes outcome)
    (hf : ∀ a, outcome = .ok a → Yields (f a) more (next a)) :
    Yields (d >>= f) (bytes ++ more) (outcome >>= next) := by
  cases outcome with
  | error e =>
    intro offset rest
    obtain ⟨c, hc⟩ := hd offset (more ++ rest)
    refine ⟨c, ?_⟩
    change EStateM.bind d f _ = _
    rw [List.append_assoc, EStateM.bind, hc]
  | ok a =>
    have hfa := hf a rfl
    change Yields (d >>= f) (bytes ++ more) (next a)
    cases hnext : next a with
    | ok b =>
      rw [hnext] at hfa
      exact (hd.decodes.bind hfa.decodes).yields
    | error e =>
      intro offset rest
      rw [hnext] at hfa
      obtain ⟨c, hc⟩ := hfa (offset + bytes.length) rest
      refine ⟨c, ?_⟩
      change EStateM.bind d f _ = _
      rw [List.append_assoc, EStateM.bind, hd]
      exact hc

theorem after {d : Decoder α} {f : α → Decoder β} {bytes more : List UInt8} {a : α}
    {outcome : Except Error β} (hd : Decodes d bytes a) (hf : Yields (f a) more outcome) :
    Yields (d >>= f) (bytes ++ more) outcome := by
  have hnext : ∀ b, (Except.ok a : Except Error α) = .ok b → Yields (f b) more outcome := by
    intro b hb
    rwa [← Except.ok.inj hb]
  exact hd.yields.bind hnext

theorem last {d : Decoder α} {f : α → Decoder β} {bytes : List UInt8} {outcome : Except Error α}
    {next : α → Except Error β} (hd : Yields d bytes outcome)
    (hf : ∀ a, outcome = .ok a → Yields (f a) [] (next a)) :
    Yields (d >>= f) bytes (outcome >>= next) := by
  have h := hd.bind hf
  rwa [List.append_nil] at h

theorem slot (look : UInt16 → Except Error α) (index : UInt16) :
    Yields (do Decoder.ofExcept (look (← Decoder.u2))) (u2Bytes index) (look index) := by
  have h := (Decodes.u2 index).yields.last fun i _ => ofExcept (look i)
  exact h

theorem within (body : Decoder α) (bytes : List UInt8) :
    Yields (Decoder.within bytes.length body) bytes (body.alone bytes) := by
  have hbody (found : List UInt8) :
      Yields (match body.run (.start found) with
        | .ok a _ => Pure.pure a
        | .error e _ => throw e) [] (body.alone found) := by
    unfold Decoder.alone
    cases body.run (.start found) with
    | ok a c => exact pure a
    | error e c => exact fun offset rest => ⟨_, rfl⟩
  exact (Decodes.block bytes).yields.last fun found _ => hbody found

theorem iterate {step : α → Decoder α} {encode : ι → List UInt8} {next : α → ι → Except Error α}
    (items : List ι) (h : ∀ i ∈ items, ∀ a, Yields (step a) (encode i) (next a i)) (a : α) :
    Yields (Decoder.iterate step items.length a) (items.flatMap encode) (items.foldlM next a) := by
  induction items generalizing a with
  | nil => exact pure a
  | cons i items ih =>
    have hrest := ih fun j hj => h j (List.mem_cons_of_mem i hj)
    exact (h i List.mem_cons_self a).bind fun b _ => hrest b

theorem table {step : α → Decoder α} {encode : ι → List UInt8} {next : α → ι → Except Error α}
    (items : List ι) (hcount : items.length < 65536)
    (h : ∀ i ∈ items, ∀ a, Yields (step a) (encode i) (next a i)) (a : α) :
    Yields (do
      let count ← Decoder.u2
      Decoder.iterate step count.toNat a) (tableBytes encode items) (items.foldlM next a) := by
  refine after (Decodes.u2 _) ?_
  rw [UInt16.toNat_ofNat_of_lt' hcount]
  exact iterate items h a

theorem counted {item : Decoder α} {encode : ι → List UInt8} {value : ι → Except Error α}
    (items : List ι) (hcount : items.length < 65536)
    (h : ∀ i ∈ items, Yields item (encode i) (value i)) :
    Yields (Decoder.counted item) (tableBytes encode items) (items.mapM value) := by
  have hbackwards : Yields (Decoder.iterate (fun seen => return (← item) :: seen) items.length [])
      (items.flatMap encode) (items.foldlM (fun seen i => return (← value i) :: seen) []) :=
    iterate items (fun i hi _ => (h i hi).last fun _ _ => pure _) []
  refine after (Decodes.u2 _) ?_
  rw [UInt16.toNat_ofNat_of_lt' hcount, List.mapM_eq_reverse_foldlM_cons]
  exact hbackwards.last fun _ _ => pure _

end Yields

end ClassAtlas
