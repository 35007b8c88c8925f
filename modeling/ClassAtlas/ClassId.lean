import ClassAtlas.ClassName

/-!
# Identities of types

A class or interface, an array of such, or an array of primitives. Primitives
themselves have no identity. Ids are told apart by how they are written: `a/b/C`,
`[[La/b/C;` or `[I`.
-/

namespace ClassAtlas

/-- The element types of primitive arrays. -/
inductive Primitive where
  | boolean | char | short | int | long | byte | float | double
deriving DecidableEq

namespace Primitive

def letter : Primitive → Char
  | boolean => 'Z'
  | char => 'C'
  | short => 'S'
  | int => 'I'
  | long => 'J'
  | byte => 'B'
  | float => 'F'
  | double => 'D'

def ofLetter? : Char → Option Primitive
  | 'Z' => some boolean
  | 'C' => some char
  | 'S' => some short
  | 'I' => some int
  | 'J' => some long
  | 'B' => some byte
  | 'F' => some float
  | 'D' => some double
  | _ => none

theorem ofLetter?_letter (p : Primitive) : ofLetter? p.letter = some p := by
  cases p <;> rfl

theorem letter_of_ofLetter? {c : Char} {p : Primitive} (h : ofLetter? c = some p) :
    p.letter = c := by
  unfold ofLetter? at h
  split at h <;> cases h <;> rfl

end Primitive

/-- A class with any number of array dimensions, or an array of primitives with one
dimension more than `further`. -/
inductive ClassId where
  | object (dimensions : Nat) (name : ClassName)
  | primitive (further : Nat) (element : Primitive)
deriving DecidableEq

namespace ClassId

/-- The class itself, without dimensions. -/
abbrev ofName (name : ClassName) : ClassId :=
  .object 0 name

def dimensions : ClassId → Nat
  | object d _ => d
  | primitive f _ => f + 1

def isArray (id : ClassId) : Bool :=
  id.dimensions != 0

/-- Whether the innermost elements are primitives. -/
def isPrimitive : ClassId → Bool
  | object _ _ => false
  | primitive _ _ => true

def isAnonymous : ClassId → Bool
  | object _ n => n.isAnonymous
  | primitive _ _ => false

/-- The segments of the name, or the letter of the element type. -/
def segments : ClassId → List String
  | object _ n => n.segments
  | primitive _ p => [String.singleton p.letter]

def brackets (dimensions : Nat) : List Char :=
  List.replicate dimensions '['

def text : ClassId → String
  | object 0 n => n.text
  | object (d + 1) n => String.ofList (brackets (d + 1) ++ 'L' :: n.text.toList ++ [';'])
  | primitive f p => String.ofList (brackets (f + 1) ++ [p.letter])

@[simp] theorem text_ofName (n : ClassName) : (ofName n).text = n.text := rfl

/-- The name of the class at the bottom of all dimensions. -/
def className? : ClassId → Option ClassName
  | object _ n => some n
  | primitive _ _ => none

def base? (id : ClassId) : Option ClassId :=
  id.className?.map ofName

def innermost? : ClassId → Option ClassId
  | object (_ + 1) n => some (ofName n)
  | _ => none

/-- The type with one dimension less, where that is a type with an identity. -/
def element? : ClassId → Option ClassId
  | object (d + 1) n => some (object d n)
  | primitive (f + 1) p => some (primitive f p)
  | _ => none

def arrayOf (more : Nat) : ClassId → ClassId
  | object d n => object (d + more) n
  | primitive f p => primitive (f + more) p

@[simp] theorem dimensions_arrayOf (more : Nat) (id : ClassId) :
    (id.arrayOf more).dimensions = id.dimensions + more := by
  cases id <;> simp [arrayOf, dimensions]; omega

@[simp] theorem className?_arrayOf (more : Nat) (id : ClassId) :
    (id.arrayOf more).className? = id.className? := by
  cases id <;> rfl

/-- The class whose source file holds this one. A type that names its own top level
stays as it is, dimensions included. -/
def topLevel : ClassId → ClassId
  | object d n => if '$' ∈ n.leaf then ofName n.topLevel else object d n
  | primitive f p => primitive f p

def external (id : ClassId) : String :=
  id.text.map fun c => if c = '/' then '.' else c

def package? : ClassId → Option String
  | object _ n => n.package?
  | primitive _ _ => none

/-- Whether two ids are written alike. -/
instance : BEq ClassId := ⟨fun a b => a.text == b.text⟩

theorem beq_iff_text_eq {a b : ClassId} : a == b ↔ a.text = b.text :=
  @beq_iff_eq String _ _ a.text b.text

/-- The name in a text that starts a class name: a newline may stand at its very front only. -/
def plain? : List Char → Option ClassId
  | [] => none
  | c :: rest => if '\n' ∈ rest then none else some (ofName (.ofText (String.ofList (c :: rest))))

/-- What follows the brackets of an array: `L`, a name and a semicolon, or a letter. -/
def arrayBody? (dimensions : Nat) : List Char → Option ClassId
  | 'L' :: body =>
    if body.getLast? = some ';' ∧ '\n' ∉ body.dropLast then
      some (object dimensions (.ofText (String.ofList body.dropLast)))
    else none
  | [c] => (Primitive.ofLetter? c).map (primitive (dimensions - 1))
  | _ => none

/-- Reads an id: a name with slashes or dots, or an array type. -/
def ofText? (text : String) : Option ClassId :=
  let (opening, rest) := text.toList.span (· == '[')
  if opening.isEmpty then plain? rest else arrayBody? opening.length rest

end ClassId

end ClassAtlas
