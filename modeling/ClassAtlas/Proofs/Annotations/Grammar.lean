import ClassAtlas.Annotations
import ClassAtlas.Proofs.Decoder.Grammar

/-!
# The grammar of annotations

Which byte strings are element values, annotations and type annotations (JVMS 4.7.16, 4.7.20),
without a constant pool and with values nested to any depth. Every decoder of annotations follows
its grammar.
-/

namespace ClassAtlas

namespace Grammar

variable {G H : Language UInt8}

/-- The type of an annotation, and a table of the names of elements with their values. -/
def annotationOf (value : Language UInt8) : Language UInt8 :=
  slot * table (slot * value)

/-- What stands behind the tag of an element value, with these values inside it. -/
def valueData (value : Language UInt8) (tag : UInt8) : Language UInt8 :=
  match Char.ofNat tag.toNat with
  | 'B' | 'C' | 'D' | 'F' | 'I' | 'J' | 'S' | 'Z' | 'c' | 's' => slot
  | 'e' => slot * slot
  | '@' => annotationOf value
  | '[' => table value
  | _ => 0

/-- The element values with at most so many levels of values. -/
def valueIn : Nat → Language UInt8
  | 0 => 0
  | levels + 1 => tagged (valueData (valueIn levels))

def value : Language UInt8 :=
  {bytes | ∃ levels, bytes ∈ valueIn levels}

/-- What stands behind the kind of a target (JVMS 4.7.20.1). A kind that is not defined has no data
of its own. -/
def targetData (kind : UInt8) : Language UInt8 :=
  match kind.toNat with
  | 0x00 | 0x01 | 0x16 => fixed 1
  | 0x10 | 0x17 => fixed 2
  | 0x11 | 0x12 => fixed 1 * fixed 1
  | 0x40 | 0x41 => counted fun ranges => fixed (6 * ranges.toNat)
  | 0x42 | 0x43 | 0x44 | 0x45 | 0x46 => fixed 2
  | 0x47 | 0x48 | 0x49 | 0x4A | 0x4B => fixed 3
  | _ => 1

/-- A target, a path with two bytes for each step, and an annotation. -/
def typed : Language UInt8 :=
  tagged targetData * tagged fun length => (fixed 1 * fixed 1) ^ length.toNat * annotationOf value

theorem annotationOf_mono (h : G ≤ H) : annotationOf G ≤ annotationOf H :=
  mul_le_mul' le_rfl (table_mono (mul_le_mul' le_rfl h))

theorem valueData_mono (h : G ≤ H) (tag : UInt8) : valueData G tag ≤ valueData H tag := by
  unfold valueData
  split <;> first
    | exact le_rfl
    | exact annotationOf_mono h
    | exact table_mono h

theorem monotone_valueIn : Monotone valueIn := by
  refine monotone_nat_of_le_succ fun levels => ?_
  induction levels with
  | zero => exact fun _ h => absurd h (Language.notMem_zero _)
  | succ levels ih =>
    rintro _ ⟨tag, rest, hrest, hbytes⟩
    exact ⟨tag, rest, valueData_mono ih tag hrest, hbytes⟩

end Grammar

variable (pool : ConstantPool)

theorem ConstantPool.follows_readText : Follows pool.readText Grammar.slot :=
  .slot pool.textAt

theorem ConstantPool.follows_readClass : Follows pool.readClass Grammar.slot :=
  .slot pool.classAt

theorem ConstantPool.follows_readConstant : Follows pool.readConstant Grammar.slot :=
  .slot pool.constantAt

namespace Annotations

theorem follows_readWith {decoder : Decoder String} {G : Language UInt8}
    (h : Follows decoder G) : Follows (readWith pool decoder) (Grammar.annotationOf G) := by
  have helement : Follows (readElement pool decoder) (Grammar.slot * G) :=
    pool.follows_readText.bind fun _ => h.last _
  exact pool.follows_readText.bind fun _ => helement.table.last _

theorem follows_readValueIn (levels : Nat) :
    Follows (readValueIn pool levels) (Grammar.valueIn levels) := by
  induction levels with
  | zero => exact .throw _
  | succ levels ih =>
    refine .tagged fun tag => ?_
    unfold Grammar.valueData
    generalize Char.ofNat tag.toNat = letter
    split
    case h_9 => exact pool.follows_readText
    case h_10 => exact pool.follows_readText.last _
    case h_11 => exact pool.follows_readText.bind fun _ => pool.follows_readText.last _
    case h_12 => exact follows_readWith pool ih
    case h_13 => exact ih.table.last _
    case h_14 =>
      -- The arms of the grammar may have been told apart together with those of the decoder.
      try split
      all_goals first
        | contradiction
        | exact .throw _
    all_goals exact pool.follows_readConstant.last _

theorem follows_readValue : Follows (readValue pool) Grammar.value where
  isLocal := (follows_readValueIn pool maxLevels).isLocal
  takes := (follows_readValueIn pool maxLevels).takes.mono fun _ _ h => ⟨maxLevels, h⟩
  isPrefixFree :=
    .levels Grammar.monotone_valueIn fun levels => (follows_readValueIn pool levels).isPrefixFree

theorem follows_read : Follows (read pool) (Grammar.annotationOf Grammar.value) :=
  follows_readWith pool (follows_readValue pool)

theorem follows_readTarget : Follows Target.read (Grammar.tagged Grammar.targetData) := by
  refine .tagged fun kind => ?_
  unfold Grammar.targetData
  generalize kind.toNat = kind
  split
  case h_11 | h_12 => exact .counted fun ranges => (Follows.skip _).last _
  case h_4 | h_5 => exact Follows.u1.bind fun _ => Follows.u1.last _
  case h_3 | h_10 => exact Follows.u2.last _
  case h_1 | h_2 | h_9 => exact Follows.u1.last _
  case h_6 | h_7 | h_8 => exact .pure _
  case h_23 =>
    split <;> first
      | contradiction
      | exact .pure _
  all_goals exact (Follows.skip _).last _

theorem follows_readTyped? : Follows (readTyped? pool) Grammar.typed := by
  have hstep : Follows readStep (Grammar.fixed 1 * Grammar.fixed 1) :=
    Follows.u1.bind fun _ => Follows.u1.last _
  have : Nonempty Target := ⟨.code⟩
  refine follows_readTarget.bind fun target => .tagged fun length => ?_
  exact (hstep.replicate length.toNat).bind fun steps => (follows_read pool).last _

end Annotations

end ClassAtlas
