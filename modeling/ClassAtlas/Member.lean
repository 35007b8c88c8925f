import Std.Data.TreeSet
import ClassAtlas.Access
import ClassAtlas.Annotations

/-!
# Fields and methods

A member of a class with what its attributes say about it. Attributes are confined to
their declared length, and those of other names are passed over. `line` is the member's
line in a profile.
-/

namespace ClassAtlas

inductive MemberKind where
  | field | method
deriving DecidableEq

def MemberKind.keyword : MemberKind → String
  | field => "field"
  | method => "method"

/-- A field or a method of the class `container`. -/
structure Member where
  kind : MemberKind
  container : ClassId
  flags : AccessFlags
  name : String
  erasedDescriptor : String
  /-- The generic signature where the member has one, and otherwise the descriptor. -/
  descriptor : String := erasedDescriptor
  value : Option Constant := none
  markedSynthetic : Bool := false
  isDeprecated : Bool := false
  /-- The declared exceptions, as they are written. -/
  exceptions : Std.TreeSet String := {}
  annotations : List String := []
  parameterAnnotations : List (List String) := []
  defaultValue : Option String := none

namespace Member

/-- The level of the member's own flags, whatever contains it. -/
def visibility (m : Member) : Visibility :=
  .ofFlags m.flags

/-- Marked by a flag or by an attribute. -/
def isSynthetic (m : Member) : Bool :=
  m.markedSynthetic || m.flags.has .synthetic

/-- Takes in one attribute, whose body the decoder is confined to. -/
def readAttribute (pool : ConstantPool) (name : String) (m : Member) : Decoder Member := do
  match name with
  | "ConstantValue" => return { m with value := some (← pool.readConstant) }
  | "Synthetic" => return { m with markedSynthetic := true }
  | "Deprecated" => return { m with isDeprecated := true }
  | "Signature" => return { m with descriptor := ← pool.readText }
  | "Exceptions" =>
    let thrown ← Decoder.counted pool.readClass
    return { m with exceptions := thrown.foldl (fun names id => names.insert id.text) m.exceptions }
  | "RuntimeVisibleAnnotations" | "RuntimeInvisibleAnnotations" =>
    let more ← Decoder.counted (Annotations.read pool)
    return { m with annotations := m.annotations ++ more }
  | "RuntimeVisibleParameterAnnotations" | "RuntimeInvisibleParameterAnnotations" =>
    let parameters ← Decoder.u1
    let more ← Decoder.replicate parameters.toNat (Decoder.counted (Annotations.read pool))
    return { m with parameterAnnotations := m.parameterAnnotations ++ more }
  | "RuntimeVisibleTypeAnnotations" | "RuntimeInvisibleTypeAnnotations" =>
    let more ← Annotations.readTypedTable pool
    return { m with annotations := m.annotations ++ more }
  | "AnnotationDefault" => return { m with defaultValue := some (← Annotations.readValue pool) }
  | _ => return m

def readNextAttribute (pool : ConstantPool) (m : Member) : Decoder Member := do
  let name ← pool.readText
  let length ← Decoder.u4
  Decoder.within length.toNat (m.readAttribute pool name)

def read (kind : MemberKind) (container : ClassId) (pool : ConstantPool) : Decoder Member := do
  let flags ← Decoder.u2
  let name ← pool.readText
  let descriptor ← pool.readText
  let attributes ← Decoder.u2
  Decoder.iterate (readNextAttribute pool) attributes.toNat
    { kind, container, flags, name, erasedDescriptor := descriptor }

def valueSuffix (m : Member) : String :=
  match m.value with
  | some value => "=" ++ value.render
  | none => ""

/-- The words between the kind and the descriptor. -/
def modifiers (m : Member) : List String :=
  m.visibility.modifier?.toList ++
    [(m.flags.has .static, "static"), (m.flags.has .final, "final"),
     (m.flags.has .volatile, "volatile"), (m.flags.has .transient, "transient"),
     (m.isDeprecated, "deprecated")].filterMap fun (given, word) =>
      if given then some word else none

def spaced (texts : List String) : String :=
  String.join (texts.map (" " ++ ·))

/-- The member's line in a profile. Only a method shows exceptions, annotations of its
parameters, with a plus sign for each parameter, and a default value. -/
def line (m : Member) : String :=
  let isMethod := m.kind = .method
  let head := m.container.text ++ "." ++ m.name ++ spaced (m.kind.keyword :: m.modifiers)
  let thrown := if isMethod then spaced (m.exceptions.toList.map ("^" ++ ·)) else ""
  let parameters :=
    if isMethod then String.join (m.parameterAnnotations.map fun texts => " +" ++ spaced texts)
    else ""
  let default :=
    match m.defaultValue with
    | some text => if isMethod then " default " ++ text else ""
    | none => ""
  head ++ " " ++ m.descriptor ++ m.valueSuffix ++ thrown ++ spaced m.annotations
    ++ parameters ++ default

end Member

end ClassAtlas
