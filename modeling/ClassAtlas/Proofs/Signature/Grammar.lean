import ClassAtlas.Signature.Parser

/-!
# The grammar of signatures

The signatures of JVMS 4.7.9.1 as trees, each with its text and with the classes that it
names. A list of type arguments or of type parameters that is empty has no brackets around
it. A class type names the class itself and one nested class for each suffix; the name of
a nested class is that of the class around it, a dollar sign and the suffix.
-/

namespace ClassAtlas.Signature

/-- A name without the characters that have a meaning in signatures, on one line. -/
structure Identifier where
  chars : List Char
  nonempty : chars ≠ []
  plain : ∀ c ∈ chars, c ∉ ['.', ';', '[', '/', '<', '>', ':', '\n']

inductive Wildcard where
  | subtypes | supertypes

def Wildcard.sign : Wildcard → Char
  | subtypes => '+'
  | supertypes => '-'

mutual

inductive ReferenceType where
  | ofClass (type : ClassType)
  | ofVariable (name : Identifier)
  | array (element : ReferenceType)
  | primitiveArray (element : Primitive)

inductive ClassType where
  | mk (packages : List Identifier) (first : SimpleClass) (nested : List SimpleClass)

inductive SimpleClass where
  | mk (name : Identifier) (arguments : List TypeArgument)

inductive TypeArgument where
  | any
  | type (wildcard : Option Wildcard) (type : ReferenceType)

end

inductive JavaType where
  | primitive (type : Primitive)
  | reference (type : ReferenceType)

structure TypeParameter where
  name : Identifier
  classBound : Option ReferenceType
  interfaceBounds : List ReferenceType

inductive Thrown where
  | ofClass (type : ClassType)
  | ofVariable (name : Identifier)

structure ClassSignature where
  parameters : List TypeParameter
  superclass : ClassType
  interfaces : List ClassType

/-- The signature of a method, which has no result when it is void. -/
structure MethodSignature where
  parameters : List TypeParameter
  arguments : List JavaType
  result : Option JavaType
  throws : List Thrown

inductive Tree where
  | ofClass (signature : ClassSignature)
  | ofField (type : ReferenceType)
  | ofMethod (signature : MethodSignature)
  | ofType (type : JavaType)

/-! ### Texts -/

def packagesText (packages : List Identifier) : List Char :=
  packages.flatMap fun package => package.chars ++ ['/']

mutual

def ReferenceType.text : ReferenceType → List Char
  | .ofClass type => type.text
  | .ofVariable name => 'T' :: name.chars ++ [';']
  | .array element => '[' :: element.text
  | .primitiveArray element => ['[', element.letter]

def ClassType.text : ClassType → List Char
  | .mk packages first nested =>
    'L' :: packagesText packages ++ first.text ++ suffixesText nested ++ [';']

def suffixesText : List SimpleClass → List Char
  | [] => []
  | suffix :: rest => '.' :: suffix.text ++ suffixesText rest

def SimpleClass.text : SimpleClass → List Char
  | .mk name [] => name.chars
  | .mk name arguments => name.chars ++ '<' :: argumentsText arguments ++ ['>']

def argumentsText : List TypeArgument → List Char
  | [] => []
  | argument :: rest => argument.text ++ argumentsText rest

def TypeArgument.text : TypeArgument → List Char
  | .any => ['*']
  | .type none type => type.text
  | .type (some wildcard) type => wildcard.sign :: type.text

end

def JavaType.text : JavaType → List Char
  | .primitive type => [type.letter]
  | .reference type => type.text

def TypeParameter.text (p : TypeParameter) : List Char :=
  p.name.chars ++ ':' :: (p.classBound.elim [] ReferenceType.text) ++
    p.interfaceBounds.flatMap fun bound => ':' :: bound.text

def parametersText (parameters : List TypeParameter) : List Char :=
  if parameters.isEmpty then [] else '<' :: parameters.flatMap TypeParameter.text ++ ['>']

def Thrown.text : Thrown → List Char
  | .ofClass type => '^' :: type.text
  | .ofVariable name => '^' :: 'T' :: name.chars ++ [';']

def Tree.text : Tree → List Char
  | .ofClass s =>
    parametersText s.parameters ++ s.superclass.text ++ s.interfaces.flatMap ClassType.text
  | .ofField type => type.text
  | .ofMethod s =>
    parametersText s.parameters ++ '(' :: s.arguments.flatMap JavaType.text ++
      ')' :: s.result.elim ['V'] JavaType.text ++ s.throws.flatMap Thrown.text
  | .ofType type => type.text

/-! ### Classes -/

def SimpleClass.name : SimpleClass → Identifier
  | .mk name _ => name

def classOf (name : List Char) : ClassId :=
  .ofName (.ofText (String.ofList name))

mutual

def ReferenceType.classes : ReferenceType → List ClassId
  | .ofClass type => type.classes
  | .ofVariable _ => []
  | .array element => element.classes
  | .primitiveArray _ => []

def ClassType.classes : ClassType → List ClassId
  | .mk packages first nested =>
    first.classes (packagesText packages) ++
      suffixesClasses (packagesText packages ++ first.name.chars) nested

def suffixesClasses (outer : List Char) : List SimpleClass → List ClassId
  | [] => []
  | suffix :: rest =>
    suffix.classes (outer ++ ['$']) ++
      suffixesClasses (outer ++ ['$'] ++ suffix.name.chars) rest

/-- The class with `before` in front of its name, and then those of its type arguments. -/
def SimpleClass.classes (before : List Char) : SimpleClass → List ClassId
  | .mk name arguments => classOf (before ++ name.chars) :: argumentsClasses arguments

def argumentsClasses : List TypeArgument → List ClassId
  | [] => []
  | argument :: rest => argument.classes ++ argumentsClasses rest

def TypeArgument.classes : TypeArgument → List ClassId
  | .any => []
  | .type _ type => type.classes

end

def JavaType.classes : JavaType → List ClassId
  | .primitive _ => []
  | .reference type => type.classes

def TypeParameter.classes (p : TypeParameter) : List ClassId :=
  p.classBound.elim [] ReferenceType.classes ++ p.interfaceBounds.flatMap ReferenceType.classes

def Thrown.classes : Thrown → List ClassId
  | .ofClass type => type.classes
  | .ofVariable _ => []

/-- The classes that a signature names, from left to right. -/
def Tree.classes : Tree → List ClassId
  | .ofClass s =>
    s.parameters.flatMap TypeParameter.classes ++ s.superclass.classes ++
      s.interfaces.flatMap ClassType.classes
  | .ofField type => type.classes
  | .ofMethod s =>
    s.parameters.flatMap TypeParameter.classes ++ s.arguments.flatMap JavaType.classes ++
      s.result.elim [] JavaType.classes ++ s.throws.flatMap Thrown.classes
  | .ofType type => type.classes

/-! ### Nesting -/

def deepest (depths : List Nat) : Nat :=
  depths.foldr max 0

theorem deepest_le {depths : List Nat} {n : Nat} : deepest depths ≤ n ↔ ∀ d ∈ depths, d ≤ n := by
  induction depths with
  | nil => simp [deepest]
  | cons d rest ih =>
    simp only [deepest, List.foldr_cons, Nat.max_le, List.forall_mem_cons]
    exact and_congr_right fun _ => ih

mutual

/-- How many type arguments and arrays stand one inside the other. -/
def ReferenceType.depth : ReferenceType → Nat
  | .ofClass type => type.depth
  | .ofVariable _ => 0
  | .array element => element.depth + 1
  | .primitiveArray _ => 1

def ClassType.depth : ClassType → Nat
  | .mk _ first nested => max first.depth (suffixesDepth nested)

def suffixesDepth : List SimpleClass → Nat
  | [] => 0
  | suffix :: rest => max suffix.depth (suffixesDepth rest)

def SimpleClass.depth : SimpleClass → Nat
  | .mk _ [] => 0
  | .mk _ arguments => argumentsDepth arguments + 1

def argumentsDepth : List TypeArgument → Nat
  | [] => 0
  | argument :: rest => max argument.depth (argumentsDepth rest)

def TypeArgument.depth : TypeArgument → Nat
  | .any => 0
  | .type _ type => type.depth

end

def JavaType.depth : JavaType → Nat
  | .primitive _ => 0
  | .reference type => type.depth

def TypeParameter.depth (p : TypeParameter) : Nat :=
  max (p.classBound.elim 0 ReferenceType.depth)
    (deepest (p.interfaceBounds.map ReferenceType.depth))

def Thrown.depth : Thrown → Nat
  | .ofClass type => type.depth
  | .ofVariable _ => 0

def Tree.depth : Tree → Nat
  | .ofClass s =>
    max (deepest (s.parameters.map TypeParameter.depth))
      (max s.superclass.depth (deepest (s.interfaces.map ClassType.depth)))
  | .ofField type => type.depth
  | .ofMethod s =>
    max (deepest (s.parameters.map TypeParameter.depth))
      (max (deepest (s.arguments.map JavaType.depth))
        (max (s.result.elim 0 JavaType.depth) (deepest (s.throws.map Thrown.depth))))
  | .ofType type => type.depth

/-! ### Kinds and bounds -/

def Tree.kind : Tree → SignatureKind
  | .ofClass _ => .ofClass
  | .ofField _ => .ofField
  | .ofMethod _ => .ofMethod
  | .ofType _ => .ofType

/-- A type parameter has a bound of one sort or the other. -/
def TypeParameter.IsBounded (p : TypeParameter) : Prop :=
  p.classBound = none → p.interfaceBounds ≠ []

def Tree.IsBounded : Tree → Prop
  | .ofClass s => ∀ p ∈ s.parameters, p.IsBounded
  | .ofMethod s => ∀ p ∈ s.parameters, p.IsBounded
  | .ofField _ | .ofType _ => True

end ClassAtlas.Signature
