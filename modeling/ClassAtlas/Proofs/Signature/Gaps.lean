import ClassAtlas.Proofs.Signature.Grammar

/-!
# Signatures with gaps

The productions of JVMS 4.7.9.1 over texts, with a constructor for each alternative. `Derives`
is told which parts of a signature may be missing or out of shape. When none may, it is the
grammar of signatures.
-/

namespace ClassAtlas.Signature

/-- What a signature may leave out, or may have in a shape that the grammar does not allow. -/
inductive Gap where
  /-- A name that is empty or holds a character with a meaning of its own. -/
  | name
  | elementType
  | wildcardBound
  | interfaceBound
  /-- What stands between the brackets of a list. -/
  | typeArguments
  | typeParameters
  | superclass
  | result
  | thrownType
  /-- The whole text of the signature of a field or of a type. -/
  | wholeType

/-- The symbols of the grammar. -/
inductive Symbol where
  | javaType | referenceType | classType | package | simpleClass | suffix
  | typeVariable | arguments | argument
  | parameters | parameter | classBound | interfaceBound
  | result | thrownType | throws
  | signature (kind : SignatureKind)
  /-- Any number of the symbol, one behind the other. -/
  | many (symbol : Symbol)
  | oneOrMore (symbol : Symbol)
  /-- The symbol, or nothing if the gap is allowed. -/
  | orGap (symbol : Symbol) (gap : Gap)

/-- An identifier, or what stands before the first of the characters `ends` if names may be
improper. -/
inductive Named (may : Gap → Prop) (ends name : List Char) : Prop where
  | proper (hne : name ≠ []) (hplain : ∀ c ∈ name, c ∉ ['.', ';', '[', '/', '<', '>', ':'])
  | improper (h : may .name) (hends : ∀ c ∈ name, c ∉ ends)

/-- The symbol derives the text, where parts may be missing. -/
inductive Derives (may : Gap → Prop) : Symbol → List Char → Prop where
  | none (symbol : Symbol) : Derives may (.many symbol) []
  | cons {symbol : Symbol} {first rest : List Char} (hfirst : Derives may symbol first)
      (hrest : Derives may (.many symbol) rest) : Derives may (.many symbol) (first ++ rest)
  | oneOrMore {symbol : Symbol} {first rest : List Char} (hfirst : Derives may symbol first)
      (hrest : Derives may (.many symbol) rest) : Derives may (.oneOrMore symbol) (first ++ rest)
  | present {symbol : Symbol} {text : List Char} (gap : Gap) (h : Derives may symbol text) :
    Derives may (.orGap symbol gap) text
  | missing (symbol : Symbol) {gap : Gap} (h : may gap) : Derives may (.orGap symbol gap) []
  | primitive (type : Primitive) : Derives may .javaType [type.letter]
  | reference {text : List Char} (h : Derives may .referenceType text) :
    Derives may .javaType text
  | ofClass {text : List Char} (h : Derives may .classType text) :
    Derives may .referenceType text
  | ofVariable {text : List Char} (h : Derives may .typeVariable text) :
    Derives may .referenceType text
  | array {element : List Char} (h : Derives may (.orGap .javaType .elementType) element) :
    Derives may .referenceType ('[' :: element)
  | typeVariable {name : List Char} (h : Named may [';'] name) :
    Derives may .typeVariable ('T' :: name ++ [';'])
  | classType {packages first nested : List Char}
      (hpackages : Derives may (.many .package) packages)
      (hfirst : Derives may .simpleClass first) (hnested : Derives may (.many .suffix) nested) :
    Derives may .classType ('L' :: packages ++ first ++ nested ++ [';'])
  | package {name : List Char} (h : Named may [';', '<', '.', '/'] name) :
    Derives may .package (name ++ ['/'])
  | simpleClass {name arguments : List Char} (hname : Named may [';', '<', '.'] name)
      (harguments : Derives may .arguments arguments) : Derives may .simpleClass (name ++ arguments)
  | suffix {text : List Char} (h : Derives may .simpleClass text) :
    Derives may .suffix ('.' :: text)
  | noArguments : Derives may .arguments []
  | arguments {text : List Char}
      (h : Derives may (.orGap (.oneOrMore .argument) .typeArguments) text) :
    Derives may .arguments ('<' :: text ++ ['>'])
  | anyArgument : Derives may .argument ['*']
  | typeArgument {text : List Char} (h : Derives may .referenceType text) :
    Derives may .argument text
  | wildcard (direction : Wildcard) {text : List Char}
      (h : Derives may (.orGap .referenceType .wildcardBound) text) :
    Derives may .argument (direction.sign :: text)
  | noParameters : Derives may .parameters []
  | parameters {text : List Char}
      (h : Derives may (.orGap (.oneOrMore .parameter) .typeParameters) text) :
    Derives may .parameters ('<' :: text ++ ['>'])
  | parameter {name bound interfaces : List Char} (hname : Named may [':'] name)
      (hbound : Derives may .classBound bound)
      (hinterfaces : Derives may (.many .interfaceBound) interfaces) :
    Derives may .parameter (name ++ bound ++ interfaces)
  | noClassBound : Derives may .classBound [':']
  | classBound {text : List Char} (h : Derives may .referenceType text) :
    Derives may .classBound (':' :: text)
  | interfaceBound {text : List Char}
      (h : Derives may (.orGap .referenceType .interfaceBound) text) :
    Derives may .interfaceBound (':' :: text)
  | void : Derives may .result ['V']
  | result {text : List Char} (h : Derives may .javaType text) : Derives may .result text
  | thrownClass {text : List Char} (h : Derives may .classType text) :
    Derives may .thrownType text
  | thrownVariable {text : List Char} (h : Derives may .typeVariable text) :
    Derives may .thrownType text
  | throws {text : List Char} (h : Derives may (.orGap .thrownType .thrownType) text) :
    Derives may .throws ('^' :: text)
  | classSignature {parameters superclass interfaces : List Char}
      (hparameters : Derives may .parameters parameters)
      (hsuperclass : Derives may (.orGap .classType .superclass) superclass)
      (hinterfaces : Derives may (.many .classType) interfaces) :
    Derives may (.signature .ofClass) (parameters ++ superclass ++ interfaces)
  | fieldSignature {text : List Char} (h : Derives may (.orGap .referenceType .wholeType) text) :
    Derives may (.signature .ofField) text
  | methodSignature {parameters arguments result throws : List Char}
      (hparameters : Derives may .parameters parameters)
      (harguments : Derives may (.many .javaType) arguments)
      (hresult : Derives may (.orGap .result .result) result)
      (hthrows : Derives may (.many .throws) throws) :
    Derives may (.signature .ofMethod) (parameters ++ '(' :: arguments ++ ')' :: result ++ throws)
  | typeSignature {text : List Char} (h : Derives may (.orGap .javaType .wholeType) text) :
    Derives may (.signature .ofType) text

/-- Derivations in which everything may be missing that has a gap. -/
abbrev Loose : Symbol → List Char → Prop :=
  Derives fun _ => True

/-- Derivations in which nothing may be missing. -/
abbrev Strict : Symbol → List Char → Prop :=
  Derives fun _ => False

namespace Derives

variable {may : Gap → Prop}

theorem orGap_of_many {symbol : Symbol} {text : List Char} {gap : Gap} (hgap : may gap)
    (h : Derives may (.many symbol) text) : Derives may (.orGap (.oneOrMore symbol) gap) text := by
  cases h with
  | none => exact .missing _ hgap
  | cons hfirst hrest => exact .present _ (.oneOrMore hfirst hrest)

end Derives

end ClassAtlas.Signature
