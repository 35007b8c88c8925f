/-!
# Binary floating-point values

A bit pattern of one of the two interchange formats, read as exact numbers: a finite
value is a natural number times a power of two. `Rounding` holds the reals that round
to a value, as numerators over one denominator. The ends of that interval belong to it
exactly when the value's significand is even.
-/

namespace ClassAtlas.Decimal

/-- The widths of the fields behind the sign bit. -/
structure BinaryFormat where
  fractionBits : Nat
  exponentBits : Nat

def binary32 : BinaryFormat := ⟨23, 8⟩

def binary64 : BinaryFormat := ⟨52, 11⟩

/-- The positive value `significand * 2 ^ exponent`. When it is the least of its binade,
the gap to the value below is half the gap to the value above. -/
structure Binary where
  significand : Nat
  exponent : Int
  leastOfBinade : Bool
deriving DecidableEq

/-- What a bit pattern stands for. -/
inductive Reading where
  | nan
  | infinite (negative : Bool)
  | zero (negative : Bool)
  | finite (negative : Bool) (value : Binary)
deriving DecidableEq

namespace BinaryFormat

def fractions (f : BinaryFormat) : Nat :=
  Nat.pow 2 f.fractionBits

def exponents (f : BinaryFormat) : Nat :=
  Nat.pow 2 f.exponentBits

/-- The exponent field of infinities and of what is no number. -/
def topExponent (f : BinaryFormat) : Nat :=
  f.exponents - 1

/-- The exponent of the unit of the least values. -/
def leastExponent (f : BinaryFormat) : Int :=
  2 - (f.exponents / 2 : Nat) - f.fractionBits

/-- Reads a bit pattern: sign, exponent and fraction, from the top. -/
def read (f : BinaryFormat) (bits : Nat) : Reading :=
  let fraction := bits % f.fractions
  let exponent := bits / f.fractions % f.exponents
  let negative := bits / f.fractions / f.exponents % 2 == 1
  if exponent == f.topExponent then
    if fraction == 0 then .infinite negative else .nan
  else if exponent == 0 then
    if fraction == 0 then .zero negative
    else .finite negative ⟨fraction, f.leastExponent, false⟩
  else
    .finite negative
      ⟨f.fractions + fraction, f.leastExponent + (exponent - 1 : Nat),
        fraction == 0 && exponent != 1⟩

end BinaryFormat

/-- A value and the interval of reals that round to it, over the denominator `scale`. -/
structure Rounding where
  value : Nat
  low : Nat
  high : Nat
  scale : Nat
  closed : Bool

/-- The unit is a quarter of the gap above, so that both half gaps are whole numbers. -/
def Binary.rounding (b : Binary) : Rounding :=
  let unit := Nat.pow 2 (b.exponent - 2).toNat
  { value := 4 * b.significand * unit
    low := (4 * b.significand - if b.leastOfBinade then 1 else 2) * unit
    high := (4 * b.significand + 2) * unit
    scale := Nat.pow 2 (2 - b.exponent).toNat
    closed := b.significand % 2 == 0 }

end ClassAtlas.Decimal
