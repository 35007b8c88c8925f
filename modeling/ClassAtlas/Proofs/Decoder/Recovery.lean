import Mathlib.Data.List.Induction
import ClassAtlas.Proofs.Decoder.Locality
import ClassAtlas.Proofs.Decoder.Outcome

/-!
# What was decoded

From an answer back to the bytes: `Takes d R` says that the bytes taken for an answer of `d`
are related to it by `R`. So what a decoder has taken is known to be laid out in some way,
though the bytes were not written by anything in this library.
-/

namespace ClassAtlas

variable {α β ι : Type}

/-- A number written with as many digits as it was read from. -/
theorem bytesOf_bigEndian (bytes : List UInt8) :
    bytesOf bytes.length (Decoder.bigEndian bytes) = bytes := by
  induction bytes using List.reverseRecOn with
  | nil => rfl
  | append_singleton bytes b ih =>
    have hb := b.toNat_lt
    have hdiv : (Decoder.bigEndian bytes * 256 + b.toNat) / 256 = Decoder.bigEndian bytes := by
      omega
    have hlast : UInt8.ofNat (Decoder.bigEndian bytes * 256 + b.toNat) = b := by
      apply UInt8.toNat_inj.1
      rw [UInt8.toNat_ofNat']
      omega
    rw [List.length_append, List.length_singleton, bytesOf, bigEndian_append_singleton, hdiv, ih,
      hlast]

theorem bigEndian_lt (bytes : List UInt8) : Decoder.bigEndian bytes < 256 ^ bytes.length := by
  induction bytes using List.reverseRecOn with
  | nil => decide
  | append_singleton bytes b ih =>
    have hb := b.toNat_lt
    rw [List.length_append, List.length_singleton, bigEndian_append_singleton, pow_succ]
    omega

def Takes (d : Decoder α) (R : List UInt8 → α → Prop) : Prop :=
  ∀ start a stop, d start = .ok a stop → ∃ used, start.rest = used ++ stop.rest ∧ R used a

/-- Where a decoder stops behind bytes that it is known to come to something on. -/
theorem Yields.rest_eq {d : Decoder α} {bytes : List UInt8} {outcome : Except Error α}
    (h : Yields d bytes outcome) {start stop : Cursor} {rest : List UInt8} {a : α}
    (hstart : start.rest = bytes ++ rest) (hd : d start = .ok a stop) : stop.rest = rest := by
  have hcursor : start = ⟨start.offset, bytes ++ rest⟩ := by rw [← hstart]
  rw [hcursor] at hd
  have hyields := h start.offset rest
  cases outcome with
  | ok b =>
    dsimp only at hyields
    rw [hyields] at hd
    injection hd with _ hstop
    rw [← hstop]
  | error e =>
    obtain ⟨c, hc⟩ := hyields
    rw [hc] at hd
    contradiction

namespace Takes

theorem mono {d : Decoder α} {R S : List UInt8 → α → Prop} (h : Takes d R)
    (hRS : ∀ used a, R used a → S used a) : Takes d S := by
  intro start a stop hd
  obtain ⟨used, hused, hR⟩ := h start a stop hd
  exact ⟨used, hused, hRS used a hR⟩

theorem pure (a : α) : Takes (Pure.pure a) fun used b => used = [] ∧ b = a := by
  intro start b stop h
  obtain ⟨rfl, rfl⟩ := Decoder.pure_eq_ok h
  exact ⟨[], rfl, rfl, rfl⟩

theorem bind {d : Decoder α} {f : α → Decoder β} {R : List UInt8 → α → Prop}
    {S : List UInt8 → β → Prop} (hd : Takes d R)
    (hf : ∀ used a, R used a → Takes (f a) fun more b => S (used ++ more) b) :
    Takes (d >>= f) S := by
  intro start b stop h
  obtain ⟨a, middle, ha, hb⟩ := Decoder.bind_eq_ok h
  obtain ⟨used, hused, hR⟩ := hd start a middle ha
  obtain ⟨more, hmore, hS⟩ := hf used a hR middle b stop hb
  exact ⟨used ++ more, by rw [hused, hmore, List.append_assoc], hS⟩

theorem last {d : Decoder α} {P : List UInt8 → Prop} (h : Takes d fun used _ => P used)
    (f : α → β) : Takes (do return f (← d)) fun used _ => P used :=
  h.bind fun used _ hused => (pure _).mono fun more _ hmore => by
    rwa [hmore.1, List.append_nil]

theorem value (e : Except Error α) :
    Takes (Decoder.ofExcept e) fun used a => used = [] ∧ e = .ok a := by
  cases e with
  | ok a => exact (pure a).mono fun _ _ h => ⟨h.1, by rw [h.2]⟩
  | error e =>
    intro start a stop h
    contradiction

theorem ofExcept (e : Except Error α) : Takes (Decoder.ofExcept e) fun used _ => used = [] :=
  (value e).mono fun _ _ h => h.1

theorem block (length : Nat) :
    Takes (Decoder.block length) fun used bytes => used = bytes ∧ bytes.length = length := by
  intro start bytes stop h
  obtain ⟨hparts, hlength⟩ := Decoder.split_eq_ok (d := Decoder.block length) (fun _ => rfl) h
  exact ⟨bytes, hparts, rfl, hlength⟩

theorem fixed (width : Nat) :
    Takes (Decoder.fixed width) fun used bytes => used = bytes ∧ bytes.length = width := by
  intro start bytes stop h
  obtain ⟨hparts, hlength⟩ := Decoder.split_eq_ok (d := Decoder.fixed width) (fun _ => rfl) h
  exact ⟨bytes, hparts, rfl, hlength⟩

theorem skip (length : Nat) : Takes (Decoder.skip length) fun used _ => used.length = length :=
  ((block length).mono fun _ _ h => h.1 ▸ h.2).last _

theorem u1 : Takes Decoder.u1 fun used n => used = [n] := by
  refine (fixed 1).bind fun used bytes hused => (pure _).mono fun more n hn => ?_
  obtain ⟨rfl, hlength⟩ := hused
  obtain ⟨rfl, rfl⟩ := hn
  obtain ⟨b, rfl⟩ := List.length_eq_one_iff.1 hlength
  simp [Decoder.bigEndian]

theorem u2 : Takes Decoder.u2 fun used n => used = u2Bytes n := by
  refine (fixed 2).bind fun used bytes hused => (pure _).mono fun more n hn => ?_
  obtain ⟨rfl, hlength⟩ := hused
  obtain ⟨rfl, rfl⟩ := hn
  have hlt := bigEndian_lt used
  have hbytes := bytesOf_bigEndian used
  rw [hlength] at hlt hbytes
  rw [List.append_nil, u2Bytes, UInt16.toNat_ofNat_of_lt' hlt, hbytes]

theorem u4 : Takes Decoder.u4 fun used n => used = u4Bytes n := by
  refine (fixed 4).bind fun used bytes hused => (pure _).mono fun more n hn => ?_
  obtain ⟨rfl, hlength⟩ := hused
  obtain ⟨rfl, rfl⟩ := hn
  have hlt := bigEndian_lt used
  have hbytes := bytesOf_bigEndian used
  rw [hlength] at hlt hbytes
  rw [List.append_nil, u4Bytes, UInt32.toNat_ofNat_of_lt' hlt, hbytes]

theorem slotValue (look : UInt16 → Except Error α) :
    Takes (do Decoder.ofExcept (look (← Decoder.u2)))
      fun used a => ∃ index, used = u2Bytes index ∧ look index = .ok a := by
  refine u2.bind fun used index hused => (value (look index)).mono fun more _ hmore => ?_
  exact ⟨index, by rw [hused, hmore.1, List.append_nil], hmore.2⟩

theorem slot (look : UInt16 → Except Error α) :
    Takes (do Decoder.ofExcept (look (← Decoder.u2))) fun used _ => ∃ index, used = u2Bytes index :=
  (slotValue look).mono fun _ _ ⟨index, hused, _⟩ => ⟨index, hused⟩

/-- A block, and what its bytes alone come to. -/
theorem withinAlone (length : Nat) (body : Decoder α) :
    Takes (Decoder.within length body)
      fun used a => used.length = length ∧ body.alone used = .ok a := by
  refine (block length).bind fun used bytes hused => ?_
  obtain ⟨rfl, hlength⟩ := hused
  split
  · next a stop hbody =>
    refine (pure a).mono fun more b hmore => ?_
    obtain ⟨rfl, rfl⟩ := hmore
    rw [List.append_nil]
    exact ⟨hlength, Decoder.alone_eq_ok_iff.2 ⟨stop, hbody⟩⟩
  · intro start a stop h
    contradiction

theorem within (length : Nat) (body : Decoder α) :
    Takes (Decoder.within length body) fun used _ => used.length = length :=
  (withinAlone length body).mono fun _ _ h => h.1

/-- Decoders in a row that each take what is laid out for an item. -/
theorem iterate {step : α → Decoder α} {encode : ι → List UInt8}
    (h : ∀ a, Takes (step a) fun used _ => ∃ i, used = encode i) (count : Nat) (a : α) :
    Takes (Decoder.iterate step count a)
      fun used _ => ∃ items : List ι, items.length = count ∧ used = items.flatMap encode := by
  induction count generalizing a with
  | zero => exact (pure a).mono fun used _ hused => ⟨[], rfl, hused.1⟩
  | succ count ih =>
    refine (h a).bind fun used next hused => (ih next).mono fun more _ hmore => ?_
    obtain ⟨i, rfl⟩ := hused
    obtain ⟨items, hcount, rfl⟩ := hmore
    exact ⟨i :: items, by rw [List.length_cons, hcount], by rw [List.flatMap_cons]⟩

theorem behindCount {f : UInt16 → Decoder β} {encode : ι → List UInt8}
    (h : ∀ count, Takes (f count)
      fun used _ => ∃ items : List ι, items.length = count.toNat ∧ used = items.flatMap encode) :
    Takes (Decoder.u2 >>= f)
      fun used _ => ∃ items : List ι, items.length < 65536 ∧ used = tableBytes encode items := by
  refine u2.bind fun used count hused => (h count).mono fun more _ hmore => ?_
  obtain ⟨items, hcount, rfl⟩ := hmore
  refine ⟨items, by rw [hcount]; exact count.toNat_lt, ?_⟩
  rw [hused, tableBytes, hcount, UInt16.ofNat_toNat]

theorem table {step : α → Decoder α} {encode : ι → List UInt8}
    (h : ∀ a, Takes (step a) fun used _ => ∃ i, used = encode i) (a : α) :
    Takes (do
      let count ← Decoder.u2
      Decoder.iterate step count.toNat a)
      fun used _ => ∃ items : List ι, items.length < 65536 ∧ used = tableBytes encode items :=
  behindCount fun count => iterate h count.toNat a

theorem replicate {item : Decoder α} {encode : ι → List UInt8}
    (h : Takes item fun used _ => ∃ i, used = encode i) (count : Nat) :
    Takes (Decoder.replicate count item)
      fun used _ => ∃ items : List ι, items.length = count ∧ used = items.flatMap encode :=
  (iterate (fun seen => h.last (· :: seen)) count []).last _

theorem counted {item : Decoder α} {encode : ι → List UInt8}
    (h : Takes item fun used _ => ∃ i, used = encode i) :
    Takes (Decoder.counted item)
      fun used _ => ∃ items : List ι, items.length < 65536 ∧ used = tableBytes encode items :=
  behindCount fun count => h.replicate count.toNat

end Takes

end ClassAtlas
