import Mathlib.Tactic.Linarith
import Mathlib.Tactic.NormNum
import Mathlib.Tactic.Positivity
import ClassAtlas.Proofs.Decimal.Numerals

/-!
# Rounding intervals

The shortest decimal of a binary value is in the interval of the numbers that round to it. The
intervals of two values of one format have no number in common, for where they meet at an end,
this belongs to one of them at most. So the shortest decimal tells the value.
-/

namespace ClassAtlas.Decimal

theorem pow_toNat {base : ℚ} (hbase : base ≠ 0) (k : ℤ) :
    base ^ k.toNat = base ^ k * base ^ (-k).toNat := by
  rw [← zpow_natCast, ← zpow_natCast, ← zpow_add₀ hbase]
  congr 1
  omega

/-! ### Numbers that round to a value -/

namespace Rounding

/-- Whether a number rounds to the value. The ends of the interval do so only together. -/
structure Admits (r : Rounding) (x : ℚ) : Prop where
  low_le : r.low ≤ x * r.scale
  le_high : x * r.scale ≤ r.high
  closed_of_end : x * r.scale = r.low ∨ x * r.scale = r.high → r.closed = true

variable (r : Rounding) (k : ℤ)

theorem cast_widened (numerator : Nat) :
    (widened k numerator : ℚ) = numerator * 10 ^ (-k).toNat := by
  simp [widened]

theorem cast_onGrid (d : Nat) :
    (r.onGrid k d : ℚ) = d * 10 ^ k * r.scale * 10 ^ (-k).toNat := by
  simp only [onGrid, Nat.pow_eq, Nat.cast_mul, Nat.cast_pow, Nat.cast_ofNat]
  rw [pow_toNat (by norm_num)]
  ring

theorem widened_le_onGrid_iff {numerator d : Nat} :
    widened k numerator ≤ r.onGrid k d ↔ (numerator : ℚ) ≤ d * 10 ^ k * r.scale := by
  rw [← Nat.cast_le (α := ℚ), cast_widened, cast_onGrid,
    mul_le_mul_iff_of_pos_right (by positivity)]

theorem onGrid_le_widened_iff {numerator d : Nat} :
    r.onGrid k d ≤ widened k numerator ↔ d * 10 ^ k * r.scale ≤ (numerator : ℚ) := by
  rw [← Nat.cast_le (α := ℚ), cast_widened, cast_onGrid,
    mul_le_mul_iff_of_pos_right (by positivity)]

theorem holds_iff_admits {d : Nat} : r.holds k d = true ↔ r.Admits (d * 10 ^ k) := by
  have hlow := @widened_le_onGrid_iff r k r.low d
  have hhigh := @onGrid_le_widened_iff r k r.high d
  have hlow' := @onGrid_le_widened_iff r k r.low d
  have hhigh' := @widened_le_onGrid_iff r k r.high d
  unfold holds
  dsimp only
  split
  · next hclosed =>
    rw [Bool.and_eq_true, decide_eq_true_iff, decide_eq_true_iff, hlow, hhigh]
    exact ⟨fun h => ⟨h.1, h.2, fun _ => hclosed⟩, fun h => ⟨h.low_le, h.le_high⟩⟩
  · next hopen =>
    rw [Bool.and_eq_true, decide_eq_true_iff, decide_eq_true_iff, ← Nat.not_le, ← Nat.not_le,
      hlow', hhigh', not_le, not_le]
    constructor
    · rintro ⟨hl, hh⟩
      exact ⟨hl.le, hh.le, fun h => h.elim (fun h => absurd h hl.ne') fun h => absurd h hh.ne⟩
    · intro h
      exact ⟨h.low_le.lt_of_ne fun heq => hopen (h.closed_of_end (.inl heq.symm)),
        h.le_high.lt_of_ne fun heq => hopen (h.closed_of_end (.inr heq))⟩

/-! ### The search -/

theorem onGrid_eq (d : Nat) : r.onGrid k d = d * r.onGrid k 1 := by
  simp only [onGrid]
  ring

/-- No grid point is between `below` and the value. -/
theorem below_bounds (hscale : 0 < r.scale) :
    r.below k * 10 ^ k * r.scale ≤ (r.value : ℚ) ∧
      (r.value : ℚ) < r.below k * 10 ^ k * r.scale + 10 ^ k * r.scale := by
  have hstep : 0 < r.onGrid k 1 := by
    simp only [onGrid, Nat.pow_eq]
    positivity
  have hle : r.onGrid k (r.below k) ≤ widened k r.value := by
    rw [onGrid_eq]
    exact Nat.div_mul_le_self _ _
  have hlt : ¬ r.onGrid k (r.below k + 1) ≤ widened k r.value := by
    rw [onGrid_eq, Nat.not_le]
    exact Nat.lt_mul_of_div_lt (Nat.lt_succ_self _) hstep
  rw [onGrid_le_widened_iff] at hle hlt
  refine ⟨hle, ?_⟩
  push_cast at hlt
  linarith

theorem holds_of_neighbour? {d : Nat} (h : r.neighbour? k = some d) : r.holds k d = true := by
  unfold neighbour? at h
  dsimp only at h
  split at h
  · split at h
    · next hboth =>
      rw [← Option.some.inj h]
      exact (Bool.and_eq_true_iff.1 hboth).1
    · next hbelow _ => exact Option.some.inj h ▸ hbelow
  · split at h
    · next habove => exact Option.some.inj h ▸ habove
    · contradiction

/-- What is found rounds to the value, or it is what stands below the value on the last grid. -/
theorem search_admits_or (finer : Nat) :
    r.Admits (r.search finer k).value ∨
      r.search finer k = ⟨r.below (k - finer), k - finer⟩ := by
  induction finer generalizing k with
  | zero => exact .inr (by simp [search])
  | succ finer ih =>
    unfold search
    split
    · next d hd => exact .inl ((r.holds_iff_admits k).1 (r.holds_of_neighbour? k hd))
    · have hlast : k - (finer + 1 : ℕ) = k - 1 - finer := by omega
      rw [hlast]
      exact ih (k - 1)

/-! ### The magnitude -/

theorem wholeDigits_spec (fuel : Nat) {value scale : Nat} (h : scale ≤ value) :
    scale * 10 ^ wholeDigits value fuel scale ≤ value := by
  induction fuel generalizing scale with
  | zero => simpa [wholeDigits] using h
  | succ fuel ih =>
    unfold wholeDigits
    split
    · simpa using h
    · next hlt =>
      have hnext := ih (Nat.le_of_not_lt hlt)
      rwa [Nat.mul_assoc, ← Nat.pow_succ'] at hnext

theorem leadingZeros_spec {scale fuel value : Nat} (h : scale ≤ value * 10 ^ fuel) :
    scale ≤ value * 10 ^ leadingZeros scale fuel value := by
  induction fuel generalizing value with
  | zero => simpa [leadingZeros] using h
  | succ fuel ih =>
    unfold leadingZeros
    split
    · next hle => simpa using hle
    · rw [Nat.pow_succ', ← Nat.mul_assoc] at h
      have hnext := ih h
      rwa [Nat.mul_assoc, ← Nat.pow_succ'] at hnext

theorem magnitude_le (hvalue : 0 < r.value) : 10 ^ r.magnitude * r.scale ≤ (r.value : ℚ) := by
  unfold magnitude
  split
  · next h =>
    have hwhole := wholeDigits_spec (r.value.log2 + 1) h
    rw [zpow_natCast, mul_comm]
    exact_mod_cast hwhole
  · have hfuel : r.scale ≤ r.value * 10 ^ (r.scale.log2 + 1) :=
      calc r.scale ≤ 2 ^ (r.scale.log2 + 1) := Nat.lt_log2_self.le
        _ ≤ 10 ^ (r.scale.log2 + 1) := Nat.pow_le_pow_left (by decide) _
        _ ≤ r.value * 10 ^ (r.scale.log2 + 1) := Nat.le_mul_of_pos_left _ hvalue
    have hzeros : (r.scale : ℚ) ≤
        r.value * 10 ^ leadingZeros r.scale (r.scale.log2 + 1) r.value := by
      exact_mod_cast leadingZeros_spec hfuel
    rw [zpow_neg, zpow_natCast, inv_mul_le_iff₀ (by positivity), mul_comm]
    exact hzeros

/-- The grid below the last one that is tried is fine enough: where a step is at most a gap to the
value, what stands below the value rounds to it. -/
theorem admits_below (hscale : 0 < r.scale) (hhigh : r.value < r.high)
    (hstep : (r.low : ℚ) + 10 ^ k * r.scale ≤ r.value) : r.Admits (r.below k * 10 ^ k) := by
  obtain ⟨hle, hlt⟩ := r.below_bounds k hscale
  have hhigh' : (r.value : ℚ) < r.high := by exact_mod_cast hhigh
  have hlow : (r.low : ℚ) < r.below k * 10 ^ k * r.scale := by linarith
  refine ⟨hlow.le, (hle.trans_lt hhigh').le, ?_⟩
  rintro (h | h)
  · exact absurd h hlow.ne'
  · exact absurd h (hle.trans_lt hhigh').ne

end Rounding

theorem Scaled.value_trimmed (d : Scaled) : d.trimmed.value = d.value := by
  unfold trimmed
  split
  · next h =>
    have hdigits : (d.digits : ℚ) = (d.digits / 10 : ℕ) * 10 := by
      have hten := beq_iff_eq.1 h
      exact_mod_cast (Nat.div_mul_cancel (Nat.dvd_of_mod_eq_zero hten)).symm
    simp only [value]
    rw [hdigits, zpow_add₀ (by norm_num), zpow_one]
    ring
  · rfl

/-! ### Values of a format -/

namespace Binary

variable (b : Binary)

/-- The ends of the interval, counted in quarters of the gap above the value. -/
def lowQuarters : Nat :=
  4 * b.significand - if b.leastOfBinade then 1 else 2

def highQuarters : Nat :=
  4 * b.significand + 2

theorem scale_pos : 0 < b.rounding.scale :=
  Nat.two_pow_pos _

theorem lowQuarters_lt (hpos : 0 < b.significand) : b.lowQuarters < 4 * b.significand := by
  unfold lowQuarters
  split <;> omega

/-- Behind seventeen digits, a step of the grid is less than a quarter of the gap. -/
theorem low_add_step_le (hpos : 0 < b.significand) (hlt : b.significand < 2 ^ 53) :
    (b.rounding.low : ℚ) + 10 ^ (b.rounding.magnitude - mostDigits) * b.rounding.scale ≤
      b.rounding.value := by
  have hunit : 0 < 2 ^ (b.exponent - 2).toNat := by positivity
  have hgap : b.rounding.low + 2 ^ (b.exponent - 2).toNat ≤ b.rounding.value := by
    have hquarters := Nat.mul_le_mul_right (2 ^ (b.exponent - 2).toNat) (b.lowQuarters_lt hpos)
    rwa [Nat.succ_mul] at hquarters
  -- Four times a significand of 53 bits has seventeen digits at most.
  have hvalue : b.rounding.value ≤ 10 ^ mostDigits * 2 ^ (b.exponent - 2).toNat :=
    Nat.mul_le_mul_right _ (by norm_num [mostDigits]; omega)
  have hmagnitude := b.rounding.magnitude_le (Nat.mul_pos (by omega) hunit)
  have hstep : (10 : ℚ) ^ (b.rounding.magnitude - mostDigits) * b.rounding.scale *
      10 ^ mostDigits ≤ b.rounding.value := by
    rw [zpow_sub₀ (by norm_num), zpow_natCast, mul_right_comm, div_mul_cancel₀ _ (by positivity)]
    exact hmagnitude
  have hstep' : (10 : ℚ) ^ (b.rounding.magnitude - mostDigits) * b.rounding.scale ≤
      2 ^ (b.exponent - 2).toNat := by
    refine le_of_mul_le_mul_right (hstep.trans ?_) (by positivity : (0 : ℚ) < 10 ^ mostDigits)
    rw [mul_comm]
    exact_mod_cast hvalue
  have hgap' : (b.rounding.low : ℚ) + 2 ^ (b.exponent - 2).toNat ≤ b.rounding.value := by
    exact_mod_cast hgap
  linarith

/-- The shortest decimal rounds to the value, for a significand of at most 53 bits. -/
theorem admits_shortest (hpos : 0 < b.significand) (hlt : b.significand < 2 ^ 53) :
    b.rounding.Admits b.shortest.value := by
  rw [shortest, Scaled.value_trimmed]
  rcases b.rounding.search_admits_or b.rounding.magnitude mostDigits with hadmits | hlast
  · exact hadmits
  · rw [hlast]
    refine b.rounding.admits_below _ ?_ ?_ (b.low_add_step_le hpos hlt)
    · exact b.scale_pos
    · exact Nat.mul_lt_mul_of_pos_right (by omega) (Nat.two_pow_pos _)

theorem cast_quarters (quarters : Nat) :
    ((quarters * Nat.pow 2 (b.exponent - 2).toNat : ℕ) : ℚ) =
      quarters * 2 ^ (b.exponent - 2) * b.rounding.scale := by
  have hneg : 2 - b.exponent = -(b.exponent - 2) := by omega
  simp only [rounding, Nat.pow_eq, Nat.cast_mul, Nat.cast_pow, Nat.cast_ofNat, hneg]
  rw [pow_toNat (by norm_num)]
  ring

theorem quarters_of_admits {x : ℚ} (h : b.rounding.Admits x) :
    b.lowQuarters * 2 ^ (b.exponent - 2) ≤ x ∧ x ≤ b.highQuarters * 2 ^ (b.exponent - 2) ∧
      (x = b.lowQuarters * 2 ^ (b.exponent - 2) ∨ x = b.highQuarters * 2 ^ (b.exponent - 2) →
        b.significand % 2 = 0) := by
  have hscale : (0 : ℚ) < b.rounding.scale := by exact_mod_cast b.scale_pos
  have hlow : (b.rounding.low : ℚ) = b.lowQuarters * 2 ^ (b.exponent - 2) * b.rounding.scale :=
    b.cast_quarters b.lowQuarters
  have hhigh : (b.rounding.high : ℚ) = b.highQuarters * 2 ^ (b.exponent - 2) * b.rounding.scale :=
    b.cast_quarters b.highQuarters
  refine ⟨?_, ?_, fun hend => ?_⟩
  · exact le_of_mul_le_mul_right (hlow ▸ h.low_le) hscale
  · exact le_of_mul_le_mul_right (hhigh ▸ h.le_high) hscale
  · have hend' : x * b.rounding.scale = b.rounding.low ∨ x * b.rounding.scale = b.rounding.high :=
      hend.imp (fun heq => by rw [heq, hlow]) (fun heq => by rw [heq, hhigh])
    exact beq_iff_eq.1 (h.closed_of_end hend')

theorem pos_of_admits (hpos : 0 < b.significand) {x : ℚ} (h : b.rounding.Admits x) : 0 < x := by
  have hlow : 0 < b.lowQuarters := by
    unfold lowQuarters
    split <;> omega
  exact lt_of_lt_of_le (by positivity) (b.quarters_of_admits h).1

/-- Whether a positive value is one of a format, as the format writes it. -/
structure IsOf (f : BinaryFormat) (b : Binary) : Prop where
  pos : 0 < b.significand
  lt : b.significand < 2 * f.fractions
  leastExponent_le : f.leastExponent ≤ b.exponent
  fractions_le : f.leastExponent < b.exponent → f.fractions ≤ b.significand
  leastOfBinade_iff : b.leastOfBinade = true ↔
    b.significand = f.fractions ∧ f.leastExponent < b.exponent

variable {b} {f : BinaryFormat} {c : Binary}

/-- Intervals of one format do not overlap, and of two that meet only one has its ends. -/
theorem IsOf.high_le_low (hb : b.IsOf f) (hc : c.IsOf f) {gap : Nat}
    (hgap : c.exponent = b.exponent + gap) (hless : gap = 0 → b.significand < c.significand) :
    b.highQuarters ≤ c.lowQuarters * 2 ^ gap ∧
      (b.highQuarters = c.lowQuarters * 2 ^ gap →
        b.significand % 2 = 1 ∨ c.significand % 2 = 1) := by
  cases gap with
  | zero =>
    have hlt := hless rfl
    rw [Nat.pow_zero, Nat.mul_one, highQuarters, lowQuarters]
    split <;> omega
  | succ gap =>
    have hless := hb.leastExponent_le
    have hnormal : f.leastExponent < c.exponent := by omega
    have hdouble : c.lowQuarters * 2 ≤ c.lowQuarters * 2 ^ (gap + 1) :=
      Nat.mul_le_mul_left _ (Nat.pow_le_pow_right (by decide) (by omega) : 2 ^ 1 ≤ 2 ^ (gap + 1))
    have hfractions := hc.fractions_le hnormal
    have hlt := hb.lt
    generalize c.lowQuarters * 2 ^ (gap + 1) = low at hdouble ⊢
    rw [lowQuarters] at hdouble
    rw [highQuarters]
    -- The least value of a binade is the only one whose interval comes close enough to meet.
    by_cases hleast : c.leastOfBinade = true
    · have heq := (hc.leastOfBinade_iff.1 hleast).1
      rw [if_pos hleast] at hdouble
      omega
    · have hne : c.significand ≠ f.fractions := fun h =>
        hleast (hc.leastOfBinade_iff.2 ⟨h, hnormal⟩)
      rw [if_neg hleast] at hdouble
      omega

theorem IsOf.not_admits (hb : b.IsOf f) (hc : c.IsOf f) {gap : Nat}
    (hgap : c.exponent = b.exponent + gap) (hless : gap = 0 → b.significand < c.significand)
    {x : ℚ} (hbx : b.rounding.Admits x) : ¬ c.rounding.Admits x := by
  intro hcx
  obtain ⟨hle, hparity⟩ := hb.high_le_low hc hgap hless
  obtain ⟨-, hhigh, hbend⟩ := b.quarters_of_admits hbx
  obtain ⟨hlow, -, hcend⟩ := c.quarters_of_admits hcx
  have hunit : (0 : ℚ) < 2 ^ (b.exponent - 2) := by positivity
  have hscaled : (2 : ℚ) ^ (c.exponent - 2) = 2 ^ gap * 2 ^ (b.exponent - 2) := by
    rw [← zpow_natCast, ← zpow_add₀ (by norm_num), hgap]
    congr 1
    omega
  have hle' : (b.highQuarters : ℚ) ≤ c.lowQuarters * 2 ^ gap := by exact_mod_cast hle
  have hmeet := mul_le_mul_of_nonneg_right hle' hunit.le
  rw [mul_assoc, ← hscaled] at hmeet
  -- Both intervals have the number, so it is an end of both.
  have hbx : x = b.highQuarters * 2 ^ (b.exponent - 2) := le_antisymm hhigh (hmeet.trans hlow)
  have hcx : x = c.lowQuarters * 2 ^ (c.exponent - 2) := le_antisymm (hhigh.trans hmeet) hlow
  have hquarters : b.highQuarters = c.lowQuarters * 2 ^ gap := by
    have heq := hbx.symm.trans hcx
    rw [hscaled, ← mul_assoc] at heq
    exact_mod_cast mul_right_cancel₀ hunit.ne' heq
  have hbeven := hbend (.inr hbx)
  have hceven := hcend (.inl hcx)
  have hodd := hparity hquarters
  omega

/-- A number rounds to one value of a format at most. -/
theorem IsOf.eq_of_admits (hb : b.IsOf f) (hc : c.IsOf f) {x : ℚ} (hbx : b.rounding.Admits x)
    (hcx : c.rounding.Admits x) : b = c := by
  have hexponent : b.exponent = c.exponent := by
    rcases Int.lt_trichotomy b.exponent c.exponent with hlt | heq | hlt
    · obtain ⟨gap, hgap⟩ := Int.le.dest hlt.le
      exact absurd hcx (hb.not_admits hc hgap.symm (by omega) hbx)
    · exact heq
    · obtain ⟨gap, hgap⟩ := Int.le.dest hlt.le
      exact absurd hbx (hc.not_admits hb hgap.symm (by omega) hcx)
  have hgap : c.exponent = b.exponent + (0 : ℕ) := by simp [hexponent]
  have hgap' : b.exponent = c.exponent + (0 : ℕ) := by simp [hexponent]
  have hsignificand : b.significand = c.significand := by
    rcases Nat.lt_trichotomy b.significand c.significand with hlt | heq | hlt
    · exact absurd hcx (hb.not_admits hc hgap (fun _ => hlt) hbx)
    · exact heq
    · exact absurd hbx (hc.not_admits hb hgap' (fun _ => hlt) hcx)
  have hleast : b.leastOfBinade = c.leastOfBinade := by
    rw [Bool.eq_iff_iff, hb.leastOfBinade_iff, hc.leastOfBinade_iff, hexponent, hsignificand]
  cases b
  cases c
  simp_all

end Binary

end ClassAtlas.Decimal
