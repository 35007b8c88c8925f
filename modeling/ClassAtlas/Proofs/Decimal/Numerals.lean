import Mathlib.Algebra.Order.Field.Power
import Mathlib.Data.Rat.Defs
import Mathlib.Tactic.Ring
import ClassAtlas.Decimal.Layout

/-!
# Numerals

What a layout writes of a decimal is digits around a point, with a power of ten behind them or
without. Such a text stands for one number, and the number of the text that is written is the
decimal. So decimals that are written alike are equal, whichever way the layout has chosen.
-/

namespace ClassAtlas.Decimal

def Scaled.value (d : Scaled) : ℚ :=
  d.digits * 10 ^ d.exponent

/-! ### Digits -/

theorem isDigit_of_mem_digitsOf {n : Nat} {c : Char} (h : c ∈ digitsOf n) : c.isDigit = true :=
  Nat.isDigit_of_mem_toDigits (by decide) (by decide) h

theorem ofDigitChars_digitsOf (n : Nat) : Nat.ofDigitChars 10 (digitsOf n) 0 = n :=
  Nat.ofDigitChars_toDigits (by decide) (by decide)

theorem digitsOf_injective : Function.Injective digitsOf :=
  Function.LeftInverse.injective (g := fun digits => Nat.ofDigitChars 10 digits 0)
    ofDigitChars_digitsOf

theorem minus_notMem_digitsOf (n : Nat) : '-' ∉ digitsOf n :=
  fun h => absurd (isDigit_of_mem_digitsOf h) (by decide)

theorem signedDigitsOf_injective : Function.Injective signedDigitsOf := by
  intro a b h
  have hne (n m : Nat) : digitsOf n ≠ '-' :: digitsOf m := fun h =>
    minus_notMem_digitsOf n (h ▸ List.mem_cons_self)
  match a, b with
  | .ofNat n, .ofNat m => rw [digitsOf_injective h]
  | .ofNat n, .negSucc m => exact absurd h (hne _ _)
  | .negSucc n, .ofNat m => exact absurd h.symm (hne _ _)
  | .negSucc n, .negSucc m =>
    have hsucc : n + 1 = m + 1 := digitsOf_injective (List.cons.inj h).2
    rw [Nat.succ.inj hsucc]

/-- Digits end where something else starts. -/
theorem append_inj_of_digits {digits others rest more : List Char}
    (hdigits : ∀ c ∈ digits, c.isDigit = true) (hothers : ∀ c ∈ others, c.isDigit = true)
    (hrest : ∀ c ∈ rest.head?, c.isDigit = false) (hmore : ∀ c ∈ more.head?, c.isDigit = false)
    (h : digits ++ rest = others ++ more) : digits = others ∧ rest = more := by
  have hcut {front behind : List Char} (hfront : ∀ c ∈ front, c.isDigit = true)
      (hbehind : ∀ c ∈ behind.head?, c.isDigit = false) :
      (front ++ behind).takeWhile Char.isDigit = front := by
    rw [List.takeWhile_append_of_pos hfront]
    cases behind with
    | nil => simp
    | cons c behind => simp [hbehind c rfl]
  have heq : digits = others := by rw [← hcut hdigits hrest, h, hcut hothers hmore]
  exact ⟨heq, List.append_cancel_left (heq ▸ h)⟩

theorem isDigit_of_mem_zero : ∀ c ∈ ['0'], c.isDigit = true :=
  List.forall_mem_singleton.2 rfl

/-! ### Texts of numbers -/

/-- Digits before and behind a point, and a power of ten where one is written. -/
structure Numeral where
  whole : List Char
  fraction : List Char
  power : Option Int
  whole_digits : ∀ c ∈ whole, c.isDigit = true
  fraction_digits : ∀ c ∈ fraction, c.isDigit = true

/-- The number that digits around a point stand for. -/
def positional (whole fraction : List Char) : ℚ :=
  Nat.ofDigitChars 10 (whole ++ fraction) 0 * 10 ^ (-fraction.length : ℤ)

namespace Numeral

def powerText (mark : Char) (power : Option Int) : List Char :=
  power.elim [] fun power => mark :: signedDigitsOf power

def text (mark : Char) (n : Numeral) : List Char :=
  n.whole ++ '.' :: (n.fraction ++ powerText mark n.power)

def value (n : Numeral) : ℚ :=
  positional n.whole n.fraction * 10 ^ n.power.getD 0

theorem powerText_injective (mark : Char) : Function.Injective (powerText mark) := by
  rintro (_ | a) (_ | b) h
  · rfl
  · cases h
  · cases h
  · rw [signedDigitsOf_injective (List.cons.inj h).2]

variable {mark : Char}

theorem isDigit_head?_powerText (hmark : mark.isDigit = false) (power : Option Int) :
    ∀ c ∈ (powerText mark power).head?, c.isDigit = false := by
  cases power with
  | none => exact fun c h => nomatch h
  | some power =>
    rintro c h
    obtain rfl : mark = c := Option.some.inj h
    exact hmark

/-- A text is that of one numeral, if the mark of the power is no digit. -/
theorem text_injective (hmark : mark.isDigit = false) : Function.Injective (text mark) := by
  intro n m h
  have hpoint (tail : List Char) : ∀ c ∈ ('.' :: tail).head?, c.isDigit = false := by
    rintro c h
    obtain rfl : '.' = c := Option.some.inj h
    rfl
  obtain ⟨hwhole, htail⟩ := append_inj_of_digits n.whole_digits m.whole_digits (hpoint _)
    (hpoint _) h
  obtain ⟨hfraction, hpower⟩ := append_inj_of_digits n.fraction_digits m.fraction_digits
    (isDigit_head?_powerText hmark _) (isDigit_head?_powerText hmark _) (List.cons.inj htail).2
  cases n
  cases m
  simp_all [(powerText_injective mark).eq_iff]

theorem head?_text (n : Numeral) (mark : Char) :
    ∀ c ∈ (n.text mark).head?, c.isDigit = true ∨ c = '.' := by
  intro c hc
  have hdigits := n.whole_digits
  unfold text at hc
  cases hwhole : n.whole with
  | nil =>
    rw [hwhole] at hc
    exact .inr (Option.some.inj hc).symm
  | cons d whole =>
    rw [hwhole] at hc hdigits
    exact .inl (Option.some.inj hc ▸ hdigits d List.mem_cons_self)

end Numeral

/-! ### Written decimals -/

/-- A zero at the end does not count. -/
theorem positional_padded (whole fraction : List Char) :
    positional whole (if fraction.isEmpty then ['0'] else fraction) =
      positional whole fraction := by
  cases fraction with
  | cons c fraction => rfl
  | nil =>
    have hzero : Nat.ofDigitChars 10 (whole ++ ['0']) 0 = 10 * Nat.ofDigitChars 10 whole 0 := by
      rw [Nat.ofDigitChars_append, Nat.ofDigitChars_cons, Nat.ofDigitChars_nil]
      simp
    simp [positional, hzero, mul_comm]

/-- The point stands somewhere among the digits or behind zeros that are added to them. -/
theorem positional_take (digits : List Char) (whole : Nat) :
    positional ((digits ++ List.replicate (whole - digits.length) '0').take whole)
        (digits.drop whole) =
      Nat.ofDigitChars 10 digits 0 * 10 ^ ((whole : ℤ) - digits.length) := by
  have hjoin : (digits ++ List.replicate (whole - digits.length) '0').take whole ++
      digits.drop whole = digits ++ List.replicate (whole - digits.length) '0' := by
    rcases Nat.le_total whole digits.length with h | h
    · simp [Nat.sub_eq_zero_of_le h]
    · rw [List.take_of_length_le (by simp; omega), List.drop_eq_nil_of_le h, List.append_nil]
  have hexponent : ((whole - digits.length : ℕ) : ℤ) + -((digits.drop whole).length : ℤ) =
      whole - digits.length := by
    rw [List.length_drop]
    omega
  rw [positional, hjoin, Nat.ofDigitChars_append, Nat.ofDigitChars_replicate_zero, ← hexponent,
    zpow_add₀ (by decide), zpow_natCast]
  push_cast
  ring

/-- The point stands in front of the digits, with zeros in between. -/
theorem positional_zeros (digits : List Char) (zeros : Nat) :
    positional ['0'] (List.replicate zeros '0' ++ digits) =
      Nat.ofDigitChars 10 digits 0 * 10 ^ (-zeros - digits.length : ℤ) := by
  have hdigits : Nat.ofDigitChars 10 (['0'] ++ (List.replicate zeros '0' ++ digits)) 0 =
      Nat.ofDigitChars 10 digits 0 := by
    rw [Nat.ofDigitChars_append, Nat.ofDigitChars_append, Nat.ofDigitChars_replicate_zero]
    rfl
  have hexponent : (-(List.replicate zeros '0' ++ digits).length : ℤ) =
      -zeros - digits.length := by
    rw [List.length_append, List.length_replicate]
    omega
  rw [positional, hdigits, hexponent]

section Spelling

variable {digits : List Char}

theorem isDigit_of_mem_padded (h : ∀ c ∈ digits, c.isDigit = true) :
    ∀ c ∈ (if digits.isEmpty then ['0'] else digits), c.isDigit = true := by
  split
  · exact isDigit_of_mem_zero
  · exact h

theorem isDigit_of_mem_zeros {zeros : Nat} : ∀ c ∈ List.replicate zeros '0', c.isDigit = true := by
  intro c hc
  rw [List.eq_of_mem_replicate hc]
  rfl

theorem Layout.exists_numeral_plain (h : ∀ c ∈ digits, c.isDigit = true) (whole : Int) :
    ∃ n : Numeral, (∀ mark, Layout.plain digits whole = n.text mark) ∧
      n.value = Nat.ofDigitChars 10 digits 0 * 10 ^ (whole - digits.length) := by
  unfold Layout.plain fractionOf
  split
  · next hwhole =>
    have hfront : ∀ c ∈ (digits ++ List.replicate (whole.toNat - digits.length) '0').take
        whole.toNat, c.isDigit = true := by
      intro c hc
      exact (List.mem_append.1 (List.mem_of_mem_take hc)).elim (h c) (isDigit_of_mem_zeros c)
    have hbehind : ∀ c ∈ digits.drop whole.toNat, c.isDigit = true := by
      intro c hc
      exact h c (List.mem_of_mem_drop hc)
    refine ⟨⟨_, _, none, hfront, isDigit_of_mem_padded hbehind⟩, fun mark => ?_, ?_⟩
    · simp [Numeral.text, Numeral.powerText]
    · rw [Numeral.value, positional_padded, positional_take, Int.toNat_of_nonneg (by omega)]
      simp
  · next hwhole =>
    have hbehind : ∀ c ∈ List.replicate (-whole).toNat '0' ++ digits, c.isDigit = true := by
      intro c hc
      exact (List.mem_append.1 hc).elim (isDigit_of_mem_zeros c) (h c)
    refine ⟨⟨['0'], _, none, isDigit_of_mem_zero, isDigit_of_mem_padded hbehind⟩,
      fun mark => ?_, ?_⟩
    · simp [Numeral.text, Numeral.powerText]
    · rw [Numeral.value, positional_padded, positional_zeros, Int.toNat_of_nonneg (by omega)]
      simp

theorem Layout.exists_numeral_scientific (l : Layout) (h : ∀ c ∈ digits, c.isDigit = true)
    (hdigits : digits ≠ []) (power : Int) :
    ∃ n : Numeral, l.scientific digits power = n.text l.exponentMark ∧
      n.value = Nat.ofDigitChars 10 digits 0 * 10 ^ (power + 1 - digits.length) := by
  have hone : 1 - digits.length = 0 := by
    have := List.length_pos_iff.2 hdigits
    omega
  have hfront : ∀ c ∈ digits.take 1, c.isDigit = true := fun c hc => h c (List.mem_of_mem_take hc)
  have hbehind : ∀ c ∈ digits.drop 1, c.isDigit = true := fun c hc => h c (List.mem_of_mem_drop hc)
  have hvalue := positional_take digits 1
  rw [hone, List.replicate_zero, List.append_nil] at hvalue
  refine ⟨⟨_, _, some power, hfront, isDigit_of_mem_padded hbehind⟩, ?_, ?_⟩
  · simp [Layout.scientific, fractionOf, Numeral.text, Numeral.powerText]
  · rw [Numeral.value, positional_padded, hvalue, mul_assoc, Option.getD_some,
      ← zpow_add₀ (by decide)]
    congr 2
    omega

end Spelling

/-- Whatever is written of a decimal is a numeral of the same value. -/
theorem Layout.exists_numeral_write (l : Layout) (d : Scaled) :
    ∃ n : Numeral, l.write d = n.text l.exponentMark ∧ n.value = d.value := by
  have hdigits : ∀ c ∈ digitsOf d.digits, c.isDigit = true := fun c => isDigit_of_mem_digitsOf
  have hvalue (power : Int) (h : power + 1 - (digitsOf d.digits).length = d.exponent) :
      (Nat.ofDigitChars 10 (digitsOf d.digits) 0 : ℚ) *
        10 ^ (power + 1 - (digitsOf d.digits).length) = d.value := by
    rw [ofDigitChars_digitsOf, h, Scaled.value]
  unfold Layout.write
  dsimp only
  split
  · obtain ⟨n, htext, hn⟩ := exists_numeral_plain hdigits
      (d.exponent + (digitsOf d.digits).length - 1 + 1)
    exact ⟨n, htext _, hn.trans (hvalue _ (by omega))⟩
  · obtain ⟨n, htext, hn⟩ := l.exists_numeral_scientific hdigits Nat.toDigits_ne_nil
      (d.exponent + (digitsOf d.digits).length - 1)
    exact ⟨n, htext, hn.trans (hvalue _ (by omega))⟩

end ClassAtlas.Decimal
