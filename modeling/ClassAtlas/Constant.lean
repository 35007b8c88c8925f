import ClassAtlas.ClassId
import ClassAtlas.Decimal.Layout
import ClassAtlas.Text.Quoted

/-!
# Constants

The literal values of a constant pool and the text that stands for each in profile
lines. Floating-point values are kept as their bit patterns.
-/

namespace ClassAtlas

inductive Constant where
  | integer (value : Int32)
  | float (bits : UInt32)
  | long (value : Int64)
  | double (bits : UInt64)
  | string (value : String)
  | classLiteral (id : ClassId)
deriving DecidableEq

namespace Constant

/-- A number from a thousandth on and below ten million has its digits around a point,
any other a power of ten behind `E`. -/
def floatLayout : Decimal.Layout where
  plainFrom := -3
  plainBelow := 7
  exponentMark := 'E'
  notANumber := ['N', 'a', 'N']
  infinity := ['I', 'n', 'f', 'i', 'n', 'i', 't', 'y']

def renderBits (format : Decimal.BinaryFormat) (bits : Nat) : String :=
  String.ofList (floatLayout.writeReading (format.read bits))

/-- Integers in decimal, strings quoted, classes as field descriptors. -/
def render : Constant → String
  | integer value => String.ofList (Decimal.signedDigitsOf value.toInt)
  | float bits => renderBits Decimal.binary32 bits.toNat
  | long value => String.ofList (Decimal.signedDigitsOf value.toInt)
  | double bits => renderBits Decimal.binary64 bits.toNat
  | string value => Text.Quoted.quote value
  | classLiteral id => "L" ++ id.text ++ ";"

end Constant

end ClassAtlas
