import ClassAtlas.ConstantPool

/-!
# Annotations

Annotations and element values are decoded straight into their canonical text, such as
`@Lp/Ann;(count=3,names=["a","b"],kind=Lp/Kind;.FAST,nested=@Lp/Inner;())`. The elements
of an annotation are sorted as texts, so their order in the file does not show. Values
nest through arrays and annotations, and the nesting is bounded.
-/

namespace ClassAtlas.Annotations

/-- How many values may stand one inside the other. -/
def maxLevels : Nat := 257

/-- Texts with commas between them. -/
def listed (texts : List String) : String :=
  ",".intercalate texts

/-- The text of an annotation with the texts of its elements in any order. -/
def written (type : String) (elements : List String) : String :=
  "@" ++ type ++ "(" ++ listed (elements.mergeSort fun a b => a ≤ b) ++ ")"

def readElement (pool : ConstantPool) (value : Decoder String) : Decoder String := do
  let name ← pool.readText
  return name ++ "=" ++ (← value)

def readWith (pool : ConstantPool) (value : Decoder String) : Decoder String := do
  let type ← pool.readText
  return written type (← Decoder.counted (readElement pool value))

/-- Decodes an element value with room for so many levels of values. -/
def readValueIn (pool : ConstantPool) : Nat → Decoder String
  | 0 => Decoder.fail .valuesNestedTooDeeply
  | levels + 1 => do
    let tag ← Decoder.u1
    match Char.ofNat tag.toNat with
    | 'B' | 'C' | 'D' | 'F' | 'I' | 'J' | 'S' | 'Z' => return (← pool.readConstant).render
    | 'c' => pool.readText
    | 's' => return Text.Quoted.quote (← pool.readText)
    | 'e' => do
      let type ← pool.readText
      return type ++ "." ++ (← pool.readText)
    | '@' => readWith pool (readValueIn pool levels)
    | '[' => return "[" ++ listed (← Decoder.counted (readValueIn pool levels)) ++ "]"
    | _ => Decoder.fail (.unknownValueTag tag)

def readValue (pool : ConstantPool) : Decoder String :=
  readValueIn pool maxLevels

def read (pool : ConstantPool) : Decoder String :=
  readWith pool (readValue pool)

/-- What a type annotation is attached to. -/
inductive Target where
  | typeParameter (index : UInt8)
  | supertype (index : UInt16)
  | bound (parameter index : UInt8)
  /-- The type of a field, or the result or receiver of a method. -/
  | result
  | formalParameter (index : UInt8)
  | thrown (index : UInt16)
  /-- A variable or an expression inside code, which is no part of a profile. -/
  | code
  /-- A target that no class file format defines yet, without data of its own. -/
  | unknown
deriving DecidableEq

namespace Target

def read : Decoder Target := do
  let kind ← Decoder.u1
  match kind.toNat with
  | 0x00 | 0x01 => return typeParameter (← Decoder.u1)
  | 0x10 => return supertype (← Decoder.u2)
  | 0x11 | 0x12 => return bound (← Decoder.u1) (← Decoder.u1)
  | 0x13 | 0x14 | 0x15 => return result
  | 0x16 => return formalParameter (← Decoder.u1)
  | 0x17 => return thrown (← Decoder.u2)
  | 0x40 | 0x41 => do
    let ranges ← Decoder.u2
    Decoder.skip (6 * ranges.toNat)
    return code
  | 0x42 | 0x43 | 0x44 | 0x45 | 0x46 => do Decoder.skip 2; return code
  | 0x47 | 0x48 | 0x49 | 0x4A | 0x4B => do Decoder.skip 3; return code
  | _ => return unknown

/-- How the target is shown, unless it lies inside code. -/
def text? : Target → Option String
  | typeParameter index => some s!"tvar[{index}]"
  | supertype index => some s!"super[{index}]"
  | bound parameter index => some s!"tvar[{parameter}.{index}]"
  | result => some "result"
  | formalParameter index => some s!"fparam[{index}]"
  | thrown index => some s!"throws[{index}]"
  | code => none
  | unknown => some ""

end Target

def readStep : Decoder String := do
  let kind ← Decoder.u1
  let argument ← Decoder.u1
  return s!"/{kind}[{argument}]"

/-- Decodes a type annotation: its target, the path to the annotated part of the type and
the annotation. Nothing is shown of an annotation inside code. -/
def readTyped? (pool : ConstantPool) : Decoder (Option String) := do
  let target ← Target.read
  let length ← Decoder.u1
  let steps ← Decoder.replicate length.toNat readStep
  let text ← read pool
  return target.text?.map fun shown => shown ++ String.join steps ++ text

/-- Decodes a counted table of type annotations, less those inside code. -/
def readTypedTable (pool : ConstantPool) : Decoder (List String) := do
  return (← Decoder.counted (readTyped? pool)).filterMap id

end ClassAtlas.Annotations
