import ClassAtlas.Error
import ClassAtlas.Text.ModifiedUtf8

/-!
# Decoders

A decoder takes values off the front of a byte string. Numbers stand with their highest
byte first. Every read is bounded by what is left: a number of fixed width that runs past
the end fails and leaves nothing, a block that is too long fails and leaves everything
in place. `within` confines a decoder to a block of given length.
-/

namespace ClassAtlas

/-- Where a decoder stands: how many bytes are behind it, and the bytes ahead. -/
structure Cursor where
  offset : Nat
  rest : List UInt8

namespace Cursor

def start (bytes : List UInt8) : Cursor :=
  ⟨0, bytes⟩

def atEnd (c : Cursor) : Cursor :=
  ⟨c.offset + c.rest.length, []⟩

def split? (c : Cursor) (count : Nat) : Option (List UInt8 × Cursor) :=
  let (front, rest) := c.rest.splitAt count
  if front.length = count then some (front, ⟨c.offset + count, rest⟩) else none

theorem split?_append (offset : Nat) (front rest : List UInt8) :
    (Cursor.mk offset (front ++ rest)).split? front.length =
      some (front, ⟨offset + front.length, rest⟩) := by
  simp [split?]

theorem split?_eq_none_iff {c : Cursor} {count : Nat} :
    c.split? count = none ↔ c.rest.length < count := by
  rw [split?, List.splitAt_eq]
  simp only [List.length_take, ite_eq_right_iff, reduceCtorEq, imp_false]
  omega

end Cursor

/-- A computation that reads on from a cursor. A failure keeps the cursor, too. -/
abbrev Decoder := EStateM Error Cursor

namespace Decoder

/-- The number with these digits in base 256. -/
def bigEndian (bytes : List UInt8) : Nat :=
  bytes.foldl (fun n b => n * 256 + b.toNat) 0

def fail {α : Type} (fault : FormatFault) : Decoder α :=
  throw (.format fault)

def ofExcept {α : Type} : Except Error α → Decoder α
  | .ok a => pure a
  | .error e => throw e

/-- The bytes of a number of fixed width. -/
def fixed (width : Nat) : Decoder (List UInt8) := fun c =>
  match c.split? width with
  | some (bytes, c) => .ok bytes c
  | none => .error (.format .cutShort) c.atEnd

theorem fixed_append (offset : Nat) (front rest : List UInt8) :
    fixed front.length ⟨offset, front ++ rest⟩ = .ok front ⟨offset + front.length, rest⟩ := by
  simp [fixed, Cursor.split?_append]

def block (length : Nat) : Decoder (List UInt8) := fun c =>
  match c.split? length with
  | some (bytes, c) => .ok bytes c
  | none => .error (.format (.blockTooLong length c.offset c.rest.length)) c

theorem block_append (offset : Nat) (front rest : List UInt8) :
    block front.length ⟨offset, front ++ rest⟩ = .ok front ⟨offset + front.length, rest⟩ := by
  simp [block, Cursor.split?_append]

def skip (length : Nat) : Decoder Unit := do
  let _ ← block length

def u1 : Decoder UInt8 := return UInt8.ofNat (bigEndian (← fixed 1))

def u2 : Decoder UInt16 := return UInt16.ofNat (bigEndian (← fixed 2))

def u4 : Decoder UInt32 := return UInt32.ofNat (bigEndian (← fixed 4))

def u8 : Decoder UInt64 := return UInt64.ofNat (bigEndian (← fixed 8))

def i4 : Decoder Int32 := return (← u4).toInt32

def i8 : Decoder Int64 := return (← u8).toInt64

/-- A text in modified UTF-8 behind its length. -/
def utf : Decoder String := do
  let length ← u2
  let bytes ← block length.toNat
  match Text.ModifiedUtf8.decode bytes with
  | .ok text => pure text
  | .error index => fail (.malformedText index)

/-- Runs a decoder on the next `length` bytes alone. -/
def within {α : Type} (length : Nat) (body : Decoder α) : Decoder α := do
  let bytes ← block length
  match body.run (.start bytes) with
  | .ok a _ => pure a
  | .error e _ => throw e

/-- Takes `count` steps from a value. -/
def iterate {α : Type} (step : α → Decoder α) : Nat → α → Decoder α
  | 0, a => pure a
  | count + 1, a => do
    let next ← step a
    iterate step count next

def replicate {α : Type} (count : Nat) (item : Decoder α) : Decoder (List α) := do
  let backwards ← iterate (fun items => return (← item) :: items) count []
  return backwards.reverse

def counted {α : Type} (item : Decoder α) : Decoder (List α) := do
  replicate (← u2).toNat item

end Decoder

end ClassAtlas
