import ClassAtlas.Decimal.Shortest

/-!
# Layouts of decimals

How a decimal is written: with all its digits around a point, or with one digit before
the point and a power of ten behind a mark. At least one digit follows the point in both.
-/

namespace ClassAtlas.Decimal

/-- The decisions of a format. A number from `10 ^ plainFrom` on and below
`10 ^ plainBelow` has its digits around a point; any other has a power of ten. -/
structure Layout where
  plainFrom : Int
  plainBelow : Int
  exponentMark : Char
  notANumber : List Char
  infinity : List Char

def digitsOf (n : Nat) : List Char :=
  Nat.toDigits 10 n

def signedDigitsOf : Int → List Char
  | .ofNat n => digitsOf n
  | .negSucc n => '-' :: digitsOf (n + 1)

/-- A point and what follows it, which is never nothing. -/
def fractionOf (digits : List Char) : List Char :=
  '.' :: if digits.isEmpty then ['0'] else digits

namespace Layout

/-- The digits with the point after the first `whole` of them, where `whole` counts zeros
to be added behind the digits, or in front of them when it is not positive. -/
def plain (digits : List Char) (whole : Int) : List Char :=
  if 0 < whole then
    (digits ++ List.replicate (whole.toNat - digits.length) '0').take whole.toNat
      ++ fractionOf (digits.drop whole.toNat)
  else '0' :: fractionOf (List.replicate (-whole).toNat '0' ++ digits)

def scientific (l : Layout) (digits : List Char) (power : Int) : List Char :=
  digits.take 1 ++ fractionOf (digits.drop 1) ++ l.exponentMark :: signedDigitsOf power

def write (l : Layout) (d : Scaled) : List Char :=
  let digits := digitsOf d.digits
  let power := d.exponent + digits.length - 1
  if l.plainFrom ≤ power ∧ power < l.plainBelow then plain digits (power + 1)
  else l.scientific digits power

def signed (negative : Bool) (text : List Char) : List Char :=
  if negative then '-' :: text else text

def writeReading (l : Layout) : Reading → List Char
  | .nan => l.notANumber
  | .infinite negative => signed negative l.infinity
  | .zero negative => signed negative ['0', '.', '0']
  | .finite negative value => signed negative (l.write value.shortest)

end Layout

end ClassAtlas.Decimal
