import ClassAtlas.Constant
import ClassAtlas.Decoder

/-!
# Constant pools

A pool is a table of slots numbered from one. An eight-byte number takes two slots, and
the second is empty, as are the slots of entries that name no class and no member.
Decoding has two parts: `RawPool.read` takes the entries as they stand in the file, with
slot numbers for what they refer to, and `RawPool.resolve` replaces the numbers, first
those of texts and then those of classes and of names with descriptors. So an entry may
refer to one before or behind it.
-/

namespace ClassAtlas

/-- The kinds of members that a pool entry can refer to. -/
inductive ReferenceKind where
  | field | method | interfaceMethod
deriving DecidableEq

/-- What was looked for when a reference of this kind is missing. -/
def ReferenceKind.entryKind : ReferenceKind → EntryKind
  | field => .field
  | method => .method
  | interfaceMethod => .interfaceMethod

structure NameAndType where
  name : String
  descriptor : String
deriving DecidableEq

structure MemberReference where
  owner : ClassId
  nameAndType : NameAndType
deriving DecidableEq

/-- An entry with everything it refers to. -/
inductive PoolEntry where
  | text (value : String)
  | constant (value : Constant)
  | nameAndType (value : NameAndType)
  | reference (kind : ReferenceKind) (member : MemberReference)
deriving DecidableEq

/-- An entry as it stands in the file, with slot numbers for what it refers to. -/
inductive RawEntry where
  | text (value : String)
  | literal (value : Constant)
  | string (text : UInt16)
  | classEntry (name : UInt16)
  | nameAndType (name descriptor : UInt16)
  | reference (kind : ReferenceKind) (owner nameAndType : UInt16)
deriving DecidableEq

namespace RawEntry

def isWide : RawEntry → Bool
  | literal (.long _) | literal (.double _) => true
  | _ => false

/-- Decodes the entry of slot `index`, from its tag on. Method handles and types, dynamic
constants and calls, modules and packages are passed over. -/
def read (index : Nat) : Decoder (Option RawEntry) := do
  let tag ← Decoder.u1
  match tag.toNat with
  | 1 => return some (text (← Decoder.utf))
  | 3 => return some (literal (.integer (← Decoder.i4)))
  | 4 => return some (literal (.float (← Decoder.u4)))
  | 5 => return some (literal (.long (← Decoder.i8)))
  | 6 => return some (literal (.double (← Decoder.u8)))
  | 7 => return some (classEntry (← Decoder.u2))
  | 8 => return some (string (← Decoder.u2))
  | 9 => return some (reference .field (← Decoder.u2) (← Decoder.u2))
  | 10 => return some (reference .method (← Decoder.u2) (← Decoder.u2))
  | 11 => return some (reference .interfaceMethod (← Decoder.u2) (← Decoder.u2))
  | 12 => return some (nameAndType (← Decoder.u2) (← Decoder.u2))
  | 15 => do Decoder.skip 3; return none
  | 16 | 19 | 20 => do Decoder.skip 2; return none
  | 17 | 18 => do Decoder.skip 4; return none
  | _ => Decoder.fail (.unknownConstantTag tag index)

end RawEntry

/-- A pool with slot numbers in place of what entries refer to. -/
structure RawPool where
  slots : Array (Option RawEntry)

namespace RawPool

/-- Fills `left` more slots. The first of them stays empty when an entry still `spills`
into it. -/
def readSlots : Nat → Bool → Array (Option RawEntry) → Decoder (Array (Option RawEntry))
  | 0, _, slots => pure slots
  | left + 1, true, slots => readSlots left false (slots.push none)
  | left + 1, false, slots => do
    let entry ← RawEntry.read slots.size
    readSlots left (entry.any RawEntry.isWide) (slots.push entry)

/-- Decodes the number of slots, counting the unused slot zero, and the entries. -/
def read : Decoder RawPool := do
  let count ← Decoder.u2
  return ⟨← readSlots (count.toNat - 1) false #[none]⟩

end RawPool

/-- A pool in which every entry has what it refers to. -/
structure ConstantPool where
  slots : Array (Option PoolEntry)

namespace ConstantPool

def get? (pool : ConstantPool) (index : UInt16) : Option PoolEntry :=
  pool.slots[index.toNat]?.join

def entries (pool : ConstantPool) : List (Nat × PoolEntry) :=
  pool.slots.toList.zipIdx.filterMap fun (slot, index) => slot.map (index, ·)

def size (pool : ConstantPool) : Nat :=
  pool.slots.toList.countP Option.isSome

/-- Any literal: numbers, strings and classes. -/
def constantAt (pool : ConstantPool) (index : UInt16) : Except Error Constant :=
  match pool.get? index with
  | some (.constant value) => .ok value
  | _ => .error (.reference .constant index)

def textAt (pool : ConstantPool) (index : UInt16) : Except Error String :=
  match pool.get? index with
  | some (.text value) => .ok value
  | _ => .error (.reference .text index)

def stringAt (pool : ConstantPool) (index : UInt16) : Except Error String :=
  match pool.get? index with
  | some (.constant (.string value)) => .ok value
  | _ => .error (.reference .string index)

def classAt (pool : ConstantPool) (index : UInt16) : Except Error ClassId :=
  match pool.get? index with
  | some (.constant (.classLiteral id)) => .ok id
  | _ => .error (.reference .classEntry index)

def nameAndTypeAt (pool : ConstantPool) (index : UInt16) : Except Error NameAndType :=
  match pool.get? index with
  | some (.nameAndType value) => .ok value
  | _ => .error (.reference .nameAndType index)

def memberAt (pool : ConstantPool) (kind : ReferenceKind) (index : UInt16) :
    Except Error MemberReference :=
  match pool.get? index with
  | some (.reference found member) =>
    if found = kind then .ok member else .error (.reference kind.entryKind index)
  | _ => .error (.reference kind.entryKind index)

def classes (pool : ConstantPool) : List ClassId :=
  pool.slots.toList.filterMap fun
    | some (.constant (.classLiteral id)) => some id
    | _ => none

end ConstantPool

namespace RawEntry

def plain? : RawEntry → Option PoolEntry
  | text value => some (.text value)
  | literal value => some (.constant value)
  | _ => none

/-- An entry that refers to texts at most; references are left for later. -/
def leaf? (texts : ConstantPool) : RawEntry → Except Error (Option PoolEntry)
  | text value => return some (.text value)
  | literal value => return some (.constant value)
  | string index => return some (.constant (.string (← texts.textAt index)))
  | classEntry index =>
    return some (.constant (.classLiteral (← ClassId.parse (← texts.textAt index))))
  | nameAndType name descriptor =>
    return some (.nameAndType ⟨← texts.textAt name, ← texts.textAt descriptor⟩)
  | reference .. => return none

/-- The entry itself when it is a reference, and otherwise the entry found before. -/
def linked? (leaves : ConstantPool) (found : Option PoolEntry) :
    RawEntry → Except Error (Option PoolEntry)
  | reference kind owner pair =>
    return some (.reference kind ⟨← leaves.classAt owner, ← leaves.nameAndTypeAt pair⟩)
  | _ => return found

end RawEntry

namespace RawPool

def texts (raw : RawPool) : ConstantPool :=
  ⟨raw.slots.map fun slot => slot.bind RawEntry.plain?⟩

def leaves (raw : RawPool) : Except Error ConstantPool := do
  let texts := raw.texts
  return ⟨← raw.slots.mapM fun
    | none => pure none
    | some entry => entry.leaf? texts⟩

/-- Replaces every slot number by what it names. -/
def resolve (raw : RawPool) : Except Error ConstantPool := do
  let leaves ← raw.leaves
  return ⟨← (raw.slots.zip leaves.slots).mapM fun
    | (none, _) => pure none
    | (some entry, found) => entry.linked? leaves found⟩

end RawPool

namespace ConstantPool

/-- Decodes a pool, from the number of its slots on. -/
def read : Decoder ConstantPool := do
  let raw ← RawPool.read
  Decoder.ofExcept raw.resolve

def readText (pool : ConstantPool) : Decoder String := do
  let index ← Decoder.u2
  Decoder.ofExcept (pool.textAt index)

def readClass (pool : ConstantPool) : Decoder ClassId := do
  let index ← Decoder.u2
  Decoder.ofExcept (pool.classAt index)

def readConstant (pool : ConstantPool) : Decoder Constant := do
  let index ← Decoder.u2
  Decoder.ofExcept (pool.constantAt index)

end ConstantPool

end ClassAtlas
