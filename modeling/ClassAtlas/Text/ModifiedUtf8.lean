/-!
# Modified UTF-8

The text encoding inside a class file. A character of the basic plane other than
NUL is written as in UTF-8, NUL takes the two bytes `C0 80`, and a supplementary
character is written as its two surrogates, three bytes each. `units` splits a byte
string into groups of one, two or three bytes, one unit of sixteen bits for each,
and names the first byte at which no such split goes on. `ofUnits` joins surrogates
into characters; a surrogate without its partner becomes U+FFFD.
-/

namespace ClassAtlas.Text.ModifiedUtf8

/-- A byte `10xxxxxx`, which stands only inside a group. -/
def isContinuation (b : UInt8) : Bool :=
  b.toNat / 64 == 2

/-- The unit of a group `110xxxxx 10xxxxxx`. -/
def pairUnit (a b : UInt8) : Nat :=
  a.toNat % 32 * 64 + b.toNat % 64

/-- The unit of a group `1110xxxx 10xxxxxx 10xxxxxx`. -/
def tripleUnit (a b c : UInt8) : Nat :=
  a.toNat % 16 * 4096 + b.toNat % 64 * 64 + c.toNat % 64

/-- Splits the bytes from `index` on, with the units before them in `seen`, newest first. -/
def unitsFrom (index : Nat) (seen : List Nat) : List UInt8 → Except Nat (List Nat)
  | [] => .ok seen.reverse
  | a :: rest =>
    if a.toNat < 0x80 then unitsFrom (index + 1) (a.toNat :: seen) rest
    else if a.toNat / 32 == 6 then
      match rest with
      | [] => .error (index + 1)
      | b :: rest =>
        if isContinuation b then unitsFrom (index + 2) (pairUnit a b :: seen) rest
        else .error (index + 1)
    else if a.toNat / 16 == 14 then
      match rest with
      | [] => .error (index + 1)
      | [b] => if isContinuation b then .error (index + 2) else .error (index + 1)
      | b :: c :: rest =>
        if isContinuation b then
          if isContinuation c then unitsFrom (index + 3) (tripleUnit a b c :: seen) rest
          else .error (index + 2)
        else .error (index + 1)
    else .error index

/-- The sixteen-bit units of a byte string, or the index of the first byte that no split
into groups can go on with. That index is the length when the last group is cut short. -/
def units (bytes : List UInt8) : Except Nat (List Nat) :=
  unitsFrom 0 [] bytes

def isHighSurrogate (u : Nat) : Bool :=
  u / 0x400 == 0x36

def isLowSurrogate (u : Nat) : Bool :=
  u / 0x400 == 0x37

/-- The supplementary character of a high and a low surrogate. -/
def joined (high low : Nat) : Char :=
  Char.ofNat (0x10000 + high % 0x400 * 0x400 + low % 0x400)

/-- What stands for a surrogate without its partner. -/
def replacement : Char := '\uFFFD'

/-- Joins units into characters behind those already `seen`, newest first. -/
def ofUnitsAfter (seen : List Char) : List Nat → List Char
  | [] => seen.reverse
  | [u] =>
    let c := if isHighSurrogate u || isLowSurrogate u then replacement else Char.ofNat u
    (c :: seen).reverse
  | u :: v :: rest =>
    if isHighSurrogate u then
      if isLowSurrogate v then ofUnitsAfter (joined u v :: seen) rest
      else ofUnitsAfter (replacement :: seen) (v :: rest)
    else if isLowSurrogate u then ofUnitsAfter (replacement :: seen) (v :: rest)
    else ofUnitsAfter (Char.ofNat u :: seen) (v :: rest)

def ofUnits (us : List Nat) : List Char :=
  ofUnitsAfter [] us

/-- The text of a byte string, or the index of its first malformed byte. -/
def decode (bytes : List UInt8) : Except Nat String :=
  (units bytes).map fun us => String.ofList (ofUnits us)

/-- The units of a character: one in the basic plane, two surrogates beyond it. -/
def unitsOf (c : Char) : List Nat :=
  if c.toNat < 0x10000 then [c.toNat]
  else [0xD800 + (c.toNat - 0x10000) / 0x400, 0xDC00 + (c.toNat - 0x10000) % 0x400]

/-- The shortest group of a unit, except that NUL takes two bytes. -/
def group (u : Nat) : List UInt8 :=
  if u != 0 && u < 0x80 then [UInt8.ofNat u]
  else if u < 0x800 then [UInt8.ofNat (0xC0 + u / 64), UInt8.ofNat (0x80 + u % 64)]
  else [UInt8.ofNat (0xE0 + u / 4096), UInt8.ofNat (0x80 + u / 64 % 64),
    UInt8.ofNat (0x80 + u % 64)]

def encode (text : String) : List UInt8 :=
  (text.toList.flatMap unitsOf).flatMap group

end ClassAtlas.Text.ModifiedUtf8
