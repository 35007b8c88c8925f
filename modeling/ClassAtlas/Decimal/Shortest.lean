import ClassAtlas.Decimal.Binary

/-!
# Shortest decimals

The decimal with the fewest digits among those that read back as a given binary value,
and of several such decimals the one nearest to the value. For one digit, two digits and
so on, `shortest` looks at the value's two neighbours on the grid of decimals with that
many digits; the first grid with a neighbour in the rounding interval answers. Of two
neighbours the nearer is taken, and of two equally near ones the upper.
-/

namespace ClassAtlas.Decimal

structure Scaled where
  digits : Nat
  exponent : Int
deriving DecidableEq

namespace Rounding

/-- `d` grid steps of `10 ^ k` as a numerator, to be compared with `widened`. -/
def onGrid (r : Rounding) (k : Int) (d : Nat) : Nat :=
  d * Nat.pow 10 k.toNat * r.scale

/-- A numerator of the interval brought to the same denominator as `onGrid`. -/
def widened (k : Int) (numerator : Nat) : Nat :=
  numerator * Nat.pow 10 (-k).toNat

/-- Whether `d * 10 ^ k` rounds to the value. -/
def holds (r : Rounding) (k : Int) (d : Nat) : Bool :=
  let x := r.onGrid k d
  if r.closed then widened k r.low ≤ x && x ≤ widened k r.high
  else widened k r.low < x && x < widened k r.high

/-- The last grid point of `10 ^ k` that is not above the value. -/
def below (r : Rounding) (k : Int) : Nat :=
  widened k r.value / r.onGrid k 1

/-- The neighbour of the value on the grid of `10 ^ k` that rounds to it, the nearer of two. -/
def neighbour? (r : Rounding) (k : Int) : Option Nat :=
  let d := r.below k
  if r.holds k d then
    if r.holds k (d + 1) && r.onGrid k d + r.onGrid k (d + 1) ≤ 2 * widened k r.value then
      some (d + 1)
    else some d
  else if r.holds k (d + 1) then some (d + 1)
  else none

/-- The greatest `e` with `10 ^ e * scale ≤ value`, for a value not below `scale`. -/
def wholeDigits (value : Nat) : Nat → Nat → Nat
  | 0, _ => 0
  | fuel + 1, scale => if value < scale * 10 then 0 else wholeDigits value fuel (scale * 10) + 1

/-- The least `e` with `scale ≤ value * 10 ^ e`. -/
def leadingZeros (scale : Nat) : Nat → Nat → Nat
  | 0, _ => 0
  | fuel + 1, value => if scale ≤ value then 0 else leadingZeros scale fuel (value * 10) + 1

/-- The decimal exponent of the value: `10 ^ e ≤ value < 10 ^ (e + 1)`. -/
def magnitude (r : Rounding) : Int :=
  if r.scale ≤ r.value then (wholeDigits r.value (Nat.log2 r.value + 1) r.scale : Nat)
  else -(leadingZeros r.scale (Nat.log2 r.scale + 1) r.value : Nat)

/-- Tries the grid of `10 ^ k` and then finer ones. -/
def search (r : Rounding) : Nat → Int → Scaled
  | 0, k => ⟨r.below k, k⟩
  | finer + 1, k =>
    match r.neighbour? k with
    | some d => ⟨d, k⟩
    | none => search r finer (k - 1)

end Rounding

/-- Seventeen digits tell any two values of either format apart. -/
def mostDigits : Nat := 17

def Scaled.trimmed (d : Scaled) : Scaled :=
  if d.digits % 10 == 0 then ⟨d.digits / 10, d.exponent + 1⟩ else d

/-- The shortest decimal that reads back as the value, and the nearest of those. -/
def Binary.shortest (b : Binary) : Scaled :=
  let r := b.rounding
  (r.search mostDigits r.magnitude).trimmed

end ClassAtlas.Decimal
