import ClassAtlas.Proofs.Decimal.Intervals

/-!
# Bit patterns that are written alike

A bit pattern can be put together again from what it is read as, unless that is no number. What
is written tells the sign, infinities from numbers, and one number from another. So of two bit
patterns that are written alike either both are no number, or they are the same.
-/

namespace ClassAtlas.Decimal

/-! ### Fields of a bit pattern -/

namespace BinaryFormat

variable (f : BinaryFormat)

theorem fractions_pos : 0 < f.fractions :=
  Nat.two_pow_pos _

theorem exponents_pos : 0 < f.exponents :=
  Nat.two_pow_pos _

/-- Puts together a sign, an exponent and a fraction. -/
def pack (negative : Bool) (exponent fraction : Nat) : Nat :=
  (negative.toNat * f.exponents + exponent) * f.fractions + fraction

/-- The bit pattern of a number or of an infinity. -/
def bitsOf : Reading → Nat
  | .nan => 0
  | .infinite negative => f.pack negative f.topExponent 0
  | .zero negative => f.pack negative 0 0
  | .finite negative value =>
    if value.significand < f.fractions then f.pack negative 0 value.significand
    else f.pack negative ((value.exponent - f.leastExponent).toNat + 1)
      (value.significand - f.fractions)

variable {f} {bits : Nat}

theorem pack_fields (h : bits < 2 * f.exponents * f.fractions) :
    f.pack (bits / f.fractions / f.exponents % 2 == 1) (bits / f.fractions % f.exponents)
      (bits % f.fractions) = bits := by
  have hsign : bits / f.fractions / f.exponents < 2 := by
    rw [Nat.div_div_eq_div_mul, Nat.div_lt_iff_lt_mul (Nat.mul_pos f.fractions_pos f.exponents_pos),
      Nat.mul_comm f.fractions, ← Nat.mul_assoc]
    exact h
  have htoNat : (bits / f.fractions / f.exponents % 2 == 1).toNat =
      bits / f.fractions / f.exponents := by
    generalize bits / f.fractions / f.exponents = sign at hsign ⊢
    match sign, hsign with
    | 0, _ => rfl
    | 1, _ => rfl
  rw [pack, htoNat, Nat.div_add_mod', Nat.div_add_mod']

/-- What is read can be put together again, unless it is no number. -/
theorem bitsOf_read (h : bits < 2 * f.exponents * f.fractions) (hnan : f.read bits ≠ .nan) :
    f.bitsOf (f.read bits) = bits := by
  have hpack := pack_fields h
  have hfraction := Nat.mod_lt bits f.fractions_pos
  unfold read at hnan ⊢
  dsimp only at hnan ⊢
  generalize bits % f.fractions = fraction at *
  generalize bits / f.fractions % f.exponents = exponent at *
  generalize (bits / f.fractions / f.exponents % 2 == 1) = negative at *
  split
  · next htop =>
    rw [if_pos htop] at hnan
    split
    · next hzero => rw [bitsOf, ← beq_iff_eq.1 htop, ← hpack, beq_iff_eq.1 hzero]
    · next hzero => rw [if_neg hzero] at hnan; contradiction
  · split
    · next hleast =>
      split
      · next hzero => rw [bitsOf, ← hpack, beq_iff_eq.1 hzero, beq_iff_eq.1 hleast]
      · rw [bitsOf, if_pos hfraction, ← hpack, beq_iff_eq.1 hleast]
    · next hleast =>
      have hexponent : (f.leastExponent + (exponent - 1 : ℕ) - f.leastExponent).toNat + 1 =
          exponent := by
        have hne : exponent ≠ 0 := fun h => hleast (beq_iff_eq.2 h)
        omega
      rw [bitsOf, if_neg (by simp), hexponent, Nat.add_sub_cancel_left, hpack]

theorem isOf_of_read {negative : Bool} {b : Binary} (h : f.read bits = .finite negative b) :
    b.IsOf f := by
  have hfraction := Nat.mod_lt bits f.fractions_pos
  unfold read at h
  dsimp only at h
  generalize bits % f.fractions = fraction at *
  generalize bits / f.fractions % f.exponents = exponent at *
  split at h
  · split at h <;> cases h
  · split at h
    · split at h
      · cases h
      · next hzero =>
        cases h
        have hpos : 0 < fraction := Nat.pos_of_ne_zero fun h => hzero (beq_iff_eq.2 h)
        have hlt : fraction < 2 * f.fractions := by omega
        exact ⟨hpos, hlt, le_rfl, by simp, by simp⟩
    · next hleast =>
      cases h
      have hne : exponent ≠ 0 := fun h => hleast (beq_iff_eq.2 h)
      refine ⟨Nat.add_pos_left f.fractions_pos _, ?_, Int.le_add_of_nonneg_right (by omega),
        fun _ => Nat.le_add_right _ _, ?_⟩
      · dsimp only
        omega
      · simp only [Bool.and_eq_true, beq_iff_eq, bne_iff_ne]
        omega

end BinaryFormat

/-! ### Texts of bit patterns -/

namespace Reading

def isNegative : Reading → Bool
  | .nan => false
  | .infinite negative => negative
  | .zero negative => negative
  | .finite negative _ => negative

/-- The number that is written, without its sign. -/
def written? : Reading → Option ℚ
  | .nan => none
  | .infinite _ => none
  | .zero _ => some 0
  | .finite _ value => some value.shortest.value

end Reading

namespace Layout

/-- Whether a text that starts so may be that of a number. -/
def startsNumber (c : Char) : Bool :=
  c.isDigit || c == '.' || c == '-'

/-- A layout whose words can be told from numbers and from each other. -/
structure IsReadable (l : Layout) : Prop where
  mark : l.exponentMark.isDigit = false
  notANumber : ∃ c ∈ l.notANumber.head?, startsNumber c = false
  infinity : ∃ c ∈ l.infinity.head?, startsNumber c = false
  ne : l.notANumber ≠ l.infinity

def unsigned (l : Layout) : Reading → List Char
  | .nan => l.notANumber
  | .infinite _ => l.infinity
  | .zero _ => ['0', '.', '0']
  | .finite _ value => l.write value.shortest

theorem writeReading_eq (l : Layout) (r : Reading) :
    l.writeReading r = signed r.isNegative (l.unsigned r) := by
  cases r <;> rfl

theorem signed_inj {text other : List Char} (htext : '-' ∉ text.head?) (hother : '-' ∉ other.head?)
    {a b : Bool} (h : signed a text = signed b other) : a = b ∧ text = other := by
  match a, b, h with
  | false, false, h => exact ⟨rfl, h⟩
  | false, true, h =>
    obtain rfl : text = '-' :: other := h
    exact absurd rfl htext
  | true, false, h =>
    obtain rfl : '-' :: text = other := h
    exact absurd rfl hother
  | true, true, h => exact ⟨rfl, (List.cons.inj h).2⟩

variable {l : Layout}

theorem exists_numeral_unsigned {r : Reading} {x : ℚ} (h : r.written? = some x) :
    ∃ n : Numeral, l.unsigned r = n.text l.exponentMark ∧ n.value = x := by
  cases r with
  | nan => cases h
  | infinite negative => cases h
  | zero negative =>
    obtain rfl : 0 = x := Option.some.inj h
    refine ⟨⟨['0'], ['0'], none, isDigit_of_mem_zero, isDigit_of_mem_zero⟩, rfl, ?_⟩
    simp [Numeral.value, positional, Nat.ofDigitChars]
  | finite negative value =>
    obtain rfl : value.shortest.value = x := Option.some.inj h
    exact l.exists_numeral_write value.shortest

theorem exists_head?_unsigned (hl : l.IsReadable) {r : Reading} (h : r.written? = none) :
    ∃ c ∈ (l.unsigned r).head?, startsNumber c = false := by
  cases r with
  | nan => exact hl.notANumber
  | infinite negative => exact hl.infinity
  | zero negative => cases h
  | finite negative value => cases h

theorem written?_eq_of_unsigned_eq (hl : l.IsReadable) {r s : Reading}
    (h : l.unsigned r = l.unsigned s) : r.written? = s.written? := by
  have hne {a b : Reading} {x : ℚ} (ha : a.written? = some x) (hb : b.written? = none) :
      l.unsigned a ≠ l.unsigned b := by
    intro hab
    obtain ⟨n, hn, -⟩ := exists_numeral_unsigned (l := l) ha
    obtain ⟨c, hc, hword⟩ := exists_head?_unsigned hl hb
    rw [← hab, hn] at hc
    have hnumber : startsNumber c = true := by
      rcases n.head?_text l.exponentMark c hc with hdigit | rfl
      · simp [startsNumber, hdigit]
      · rfl
    rw [hnumber] at hword
    contradiction
  cases hr : r.written? with
  | none =>
    cases hs : s.written? with
    | none => rfl
    | some y => exact absurd h.symm (hne hs hr)
  | some x =>
    cases hs : s.written? with
    | none => exact absurd h (hne hr hs)
    | some y =>
      obtain ⟨n, hn, rfl⟩ := exists_numeral_unsigned (l := l) hr
      obtain ⟨m, hm, rfl⟩ := exists_numeral_unsigned (l := l) hs
      rw [hn, hm] at h
      rw [Numeral.text_injective hl.mark h]

theorem minus_notMem_head?_unsigned (hl : l.IsReadable) (r : Reading) :
    '-' ∉ (l.unsigned r).head? := by
  intro h
  cases hr : r.written? with
  | none =>
    obtain ⟨c, hc, hword⟩ := exists_head?_unsigned hl hr
    obtain rfl : '-' = c := Option.mem_unique h hc
    contradiction
  | some x =>
    obtain ⟨n, hn, -⟩ := exists_numeral_unsigned (l := l) hr
    rw [hn] at h
    rcases n.head?_text l.exponentMark '-' h with hdigit | hpoint
    · cases hdigit
    · cases hpoint

theorem eq_of_words (hl : l.IsReadable) {r s : Reading} (hr : r.written? = none)
    (hs : s.written? = none) (hnegative : r.isNegative = s.isNegative)
    (hunsigned : l.unsigned r = l.unsigned s) : r = s := by
  match r, s, hr, hs with
  | .nan, .nan, _, _ => rfl
  | .nan, .infinite _, _, _ => exact absurd hunsigned hl.ne
  | .infinite _, .nan, _, _ => exact absurd hunsigned.symm hl.ne
  | .infinite _, .infinite _, _, _ => exact congrArg Reading.infinite hnegative

/-- A format whose significands have 53 bits at most tells its numbers by their shortest
decimals. -/
theorem eq_of_numbers {f : BinaryFormat} (hf : 2 * f.fractions ≤ 2 ^ 53) {r s : Reading} {x : ℚ}
    (hr : r.written? = some x) (hs : s.written? = some x)
    (hrof : ∀ a b, r = .finite a b → b.IsOf f) (hsof : ∀ a b, s = .finite a b → b.IsOf f)
    (hnegative : r.isNegative = s.isNegative) : r = s := by
  have hadmits {b : Binary} (hb : b.IsOf f) : b.rounding.Admits b.shortest.value :=
    b.admits_shortest hb.pos (hb.lt.trans_le hf)
  match r, s, hr, hs with
  | .zero _, .zero _, _, _ => exact congrArg Reading.zero hnegative
  | .zero _, .finite n c, hr, hs =>
    have hc := hsof n c rfl
    have hvalue : c.shortest.value = 0 := Option.some.inj (hs.trans hr.symm)
    exact absurd hvalue (c.pos_of_admits hc.pos (hadmits hc)).ne'
  | .finite m b, .zero _, hr, hs =>
    have hb := hrof m b rfl
    have hvalue : b.shortest.value = 0 := Option.some.inj (hr.trans hs.symm)
    exact absurd hvalue (b.pos_of_admits hb.pos (hadmits hb)).ne'
  | .finite m b, .finite n c, hr, hs =>
    obtain rfl : m = n := hnegative
    have hb := hrof m b rfl
    have hc := hsof m c rfl
    have hvalue : c.shortest.value = b.shortest.value := Option.some.inj (hs.trans hr.symm)
    rw [hb.eq_of_admits hc (hadmits hb) (hvalue ▸ hadmits hc)]

/-- Bit patterns of a format that are written alike are read alike. -/
theorem read_eq_of_writeReading_eq (hl : l.IsReadable) {f : BinaryFormat}
    (hf : 2 * f.fractions ≤ 2 ^ 53) {bits other : Nat}
    (h : l.writeReading (f.read bits) = l.writeReading (f.read other)) :
    f.read bits = f.read other := by
  rw [writeReading_eq, writeReading_eq] at h
  obtain ⟨hnegative, hunsigned⟩ := signed_inj (minus_notMem_head?_unsigned hl _)
    (minus_notMem_head?_unsigned hl _) h
  have hwritten := written?_eq_of_unsigned_eq hl hunsigned
  cases hr : (f.read bits).written? with
  | none => exact eq_of_words hl hr (hwritten ▸ hr) hnegative hunsigned
  | some x =>
    exact eq_of_numbers hf hr (hwritten ▸ hr) (fun _ _ => BinaryFormat.isOf_of_read)
      (fun _ _ => BinaryFormat.isOf_of_read) hnegative

/-- Bit patterns are written alike when both are no number or they are the same. -/
theorem writeReading_eq_iff (hl : l.IsReadable) {f : BinaryFormat}
    (hf : 2 * f.fractions ≤ 2 ^ 53) {bits other : Nat}
    (hbits : bits < 2 * f.exponents * f.fractions)
    (hother : other < 2 * f.exponents * f.fractions) :
    l.writeReading (f.read bits) = l.writeReading (f.read other) ↔
      bits = other ∨ f.read bits = .nan ∧ f.read other = .nan := by
  constructor
  · intro h
    have hread := read_eq_of_writeReading_eq hl hf h
    by_cases hnan : f.read bits = .nan
    · exact .inr ⟨hnan, hread ▸ hnan⟩
    · refine .inl ?_
      rw [← BinaryFormat.bitsOf_read hbits hnan, hread,
        BinaryFormat.bitsOf_read hother (hread ▸ hnan)]
  · rintro (rfl | ⟨hbits, hother⟩)
    · rfl
    · rw [hbits, hother]

end Layout

end ClassAtlas.Decimal
