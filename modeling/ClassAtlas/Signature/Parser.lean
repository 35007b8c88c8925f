import ClassAtlas.Signature.Scanner

/-!
# Parsing signatures

The generic signatures of classes, fields and methods (JVMS 4.7.9.1), read for the
classes they name. Each production answers whether the text ahead starts with it, and
fails when it starts with it but cannot go on. A class type submits the class itself and,
for each suffix behind a dot, the nested class, whose name is that of the class around it
with a dollar sign and the suffix.

Type arguments and element types of arrays stand one level deeper than what they belong
to. A production is given the parser of types one level down, or nothing when there are
no more levels.
-/

namespace ClassAtlas

inductive SignatureKind where
  | ofClass | ofField | ofMethod | ofType
deriving DecidableEq

namespace Signature

open Scan

/-- The number of levels that types may be nested in types. -/
def maxLevels : Nat := 256

/-- Whether a character ends a simple class name. -/
def endsName (c : Char) : Bool :=
  c == ';' || c == '<' || c == '.'

/-- Runs the parser one level down, if there is such a level. -/
def entered (inner : Option (Scan Bool)) : Scan (Scan Bool) :=
  match inner with
  | some field => pure field
  | none => fail .nestedTooDeeply

/-- `T name ;` -/
def typeVariable : Scan Bool := do
  if (← peek) ≠ some 'T' then return false
  let (name, rest) := (← get).rest.span (· != ';')
  match rest with
  | [] => fail .unterminatedVariable
  | _ :: rest =>
    pass (name ++ [';']) rest
    return true

/-- A primitive or whatever `field` reads. -/
def typeOf (field : Scan Bool) : Scan Bool := do
  match ← peek with
  | none => return false
  | some c =>
    if (Primitive.ofLetter? c).isSome then
      bump
      return true
    field

/-- `[ type`, where the type may be missing. -/
def arrayType (inner : Option (Scan Bool)) : Scan Bool := do
  if !(← accept '[') then return false
  let field ← entered inner
  let _ ← typeOf field
  return true

/-- `*`, or a type that `+` or `-` may stand before; behind these it may be missing. -/
def typeArgument (field : Scan Bool) : Scan Bool := do
  match ← peek with
  | none => return false
  | some '*' =>
    bump
    return true
  | some '+' | some '-' =>
    bump
    let _ ← field
    return true
  | some _ => field

/-- `< argument* >`, if it is there. -/
def typeArguments (inner : Option (Scan Bool)) : Scan Unit := do
  if ← accept '<' then
    let field ← entered inner
    repeated (typeArgument field)
    expect '>'

/-- `name arguments? ( . name arguments? )* ;`, where `outer` is what stands before the
name of each class: packages at first, and then the class around it. -/
def simpleClasses (inner : Option (Scan Bool)) : Nat → String → Scan Unit
  | 0, _ => fail .tooManyElements
  | rounds + 1, outer => do
    tick
    let (name, rest) := (← get).rest.span (!endsName ·)
    let full := outer ++ String.ofList name
    match ClassId.ofText? full with
    | none => fail (.badClassName full)
    | some id =>
      submit id
      pass name rest
      typeArguments inner
      if ← accept '.' then simpleClasses inner rounds (full ++ "$") else expect ';'

def packages : Scan String := do
  let rest := (← get).rest
  let name := rest.takeWhile (!endsName ·)
  let simple := (name.reverse.takeWhile (· != '/')).length
  let packages := name.take (name.length - simple)
  pass packages (rest.drop packages.length)
  return String.ofList packages

/-- `L packages? simpleClasses` -/
def classType (inner : Option (Scan Bool)) : Scan Bool := do
  if !(← accept 'L') then return false
  simpleClasses inner (maxSteps + 1) (← packages)
  return true

def fieldTypeIn (inner : Option (Scan Bool)) : Scan Bool :=
  either (classType inner) (either (arrayType inner) typeVariable)

/-- A class, an array or a type variable with so many levels below it. -/
def fieldTypeOf : Nat → Scan Bool
  | 0 => fieldTypeIn none
  | levels + 1 => fieldTypeIn (some (fieldTypeOf levels))

/-- The parser of what stands inside a type of the outermost level. -/
def belowTop : Option (Scan Bool) :=
  some (fieldTypeOf (maxLevels - 1))

def topClassType : Scan Bool := classType belowTop

def fieldType : Scan Bool := fieldTypeIn belowTop

def type : Scan Bool := typeOf fieldType

/-- `: type`, where the type may be missing. -/
def bound : Scan Bool := do
  if !(← accept ':') then return false
  let _ ← fieldType
  return true

/-- `name bound bound*` -/
def typeParameter : Scan Bool := do
  match ← peek with
  | none | some '>' => return false
  | some _ =>
    let (name, rest) := (← get).rest.span (· != ':')
    if rest.isEmpty then fail .missingBound
    pass name rest
    let _ ← bound
    repeated bound
    return true

/-- `< parameter* >`, if it is there. -/
def typeParameters : Scan Unit := do
  if ← accept '<' then
    repeated typeParameter
    expect '>'

/-- `V` or a type, which may be missing. -/
def returnType : Scan Unit := do
  if !(← accept 'V') then
    let _ ← type

/-- `^` and a type variable or a class, which may be missing. -/
def thrown : Scan Bool := do
  if !(← accept '^') then return false
  let _ ← either typeVariable topClassType
  return true

/-- `parameters? superclass interface*` -/
def classSignature : Scan Unit := do
  typeParameters
  let _ ← topClassType
  repeated topClassType

/-- `parameters? ( type* ) result thrown*` -/
def methodSignature : Scan Unit := do
  typeParameters
  expect '('
  repeated type
  expect ')'
  returnType
  repeated thrown

def production : SignatureKind → Scan Unit
  | .ofClass => do classSignature; finish
  | .ofField => do let _ ← fieldType; finish
  | .ofMethod => do methodSignature; finish
  | .ofType => do let _ ← type; finish

/-- What a parser made of a signature: the classes it found, in order, and the error that
ended it, if any. -/
structure Outcome where
  classes : List ClassId
  error : Option Error

/-- The classes that a signature names, from left to right and with repetitions. -/
def parse (kind : SignatureKind) (text : String) : Outcome :=
  match (production kind).run { rest := text.toList } with
  | .ok _ s => ⟨s.found.toList, none⟩
  | .error stop s => ⟨s.found.toList, some (.signature text stop.position stop.fault)⟩

end Signature

end ClassAtlas
