import ClassAtlas.ClassId

/-!
# Errors

What can go wrong when class files are read, signatures are parsed and reports are
written, each as its cause. `message` words a cause, and `trail` lists the wording of
an error and of every cause below it.
-/

namespace ClassAtlas

/-- Why bytes or a text do not have the form they should have. -/
inductive FormatFault where
  /-- A number of fixed width runs past the end. -/
  | cutShort
  /-- A block of `needed` bytes at `offset` is longer than the `left` bytes there. -/
  | blockTooLong (needed offset left : Nat)
  /-- No group of modified UTF-8 goes on at this byte. -/
  | malformedText (index : Nat)
  | notAClassName (text : String)
  | notAClassFile
  | unknownConstantTag (tag : UInt8) (index : Nat)
  | unknownValueTag (tag : UInt8)
  | valuesNestedTooDeeply
  | noClassFile (id : ClassId)
deriving DecidableEq

namespace FormatFault

def message : FormatFault → String
  | cutShort => "truncated classfile: failed to fill whole buffer"
  | blockTooLong needed offset left =>
    s!"truncated classfile: need {needed} bytes at offset {offset}, {left} left"
  | malformedText index => s!"malformed modified UTF-8 at byte {index}"
  | notAClassName text => s!"Not class: {text}"
  | notAClassFile => "Not a class"
  | unknownConstantTag tag index => s!"CONSTANT type {tag} pos {index}"
  | unknownValueTag tag =>
    "Annotation value not recognized: " ++ String.singleton (Char.ofNat tag.toNat)
  | valuesNestedTooDeeply => "annotation values nested too deeply"
  | noClassFile id => "no classfile for " ++ id.text

/-- Whether more bytes could have mended it. -/
def isTruncation : FormatFault → Bool
  | cutShort | blockTooLong _ _ _ => true
  | _ => false

end FormatFault

/-- What a constant pool index was expected to name. -/
inductive EntryKind where
  | constant | text | string | classEntry | nameAndType | field | method | interfaceMethod
deriving DecidableEq

namespace EntryKind

def label : EntryKind → String
  | constant => "constant"
  | text => "text"
  | string => "string"
  | classEntry => "class"
  | nameAndType => "NameAndType"
  | field => "field"
  | method => "method"
  | interfaceMethod => "interface method"

end EntryKind

inductive SignatureFault where
  | expected (c : Char)
  | trailingCharacters
  | tooManyElements
  | nestedTooDeeply
  | missingBound
  | unterminatedVariable
  | badClassName (text : String)
deriving DecidableEq

namespace SignatureFault

def message : SignatureFault → String
  | expected c => "expected '" ++ String.singleton c ++ "'"
  | trailingCharacters => "trailing characters"
  | tooManyElements => "too many elements"
  | nestedTooDeeply => "nested too deeply"
  | missingBound => "type parameter without bound"
  | unterminatedVariable => "unterminated type variable"
  | badClassName text => s!"bad class name '{text}'"

end SignatureFault

inductive FileFault where
  | missing
  | alreadyExists
  | notADirectory
  | isADirectory
  | nameTooLong
  | nulInPath
deriving DecidableEq

namespace FileFault

def message : FileFault → String
  | missing => "No such file or directory (os error 2)"
  | alreadyExists => "File exists (os error 17)"
  | notADirectory => "Not a directory (os error 20)"
  | isADirectory => "Is a directory (os error 21)"
  | nameTooLong => "File name too long (os error 36)"
  | nulInPath => "file name contained an unexpected NUL byte"

end FileFault

inductive Error where
  | format (fault : FormatFault)
  | reference (kind : EntryKind) (index : UInt16)
  | identityMismatch (expected found : ClassId)
  | signature (text : String) (position : Nat) (fault : SignatureFault)
  /-- What failed while a class was analysed. -/
  | inClass (id : ClassId) (cause : Error)
  | file (path : String) (fault : FileFault)
  /-- A directory walk that cannot start or go on. -/
  | walk (path : String) (fault : FileFault)
deriving DecidableEq

namespace Error

def walkMessage (path : String) (fault : FileFault) : String :=
  "IO error for operation on " ++ path ++ ": " ++ fault.message

def message : Error → String
  | format fault => "Format error: " ++ fault.message
  | reference kind index => s!"Constant pool {kind.label} missing at index {index}"
  | identityMismatch expected found =>
    s!"Class mismatch, expected {expected.text}; found {found.text}"
  | signature text position fault =>
    s!"Malformed signature '{text}' at position {position}: {fault.message}"
  | inClass id cause => s!"While analyzing {id.text}: {cause.message}"
  | file path fault => s!"IO error on {path}: {fault.message}"
  | walk path fault => s!"IO error on {path}: {walkMessage path fault}"

/-- The wording of the error, then that of each cause below it. -/
def trail : Error → List String
  | inClass id cause => (inClass id cause).message :: cause.trail
  | file path fault => [(file path fault).message, fault.message]
  | walk path fault => [(walk path fault).message, walkMessage path fault, fault.message]
  | e => [e.message]

end Error

/-- Reads an id, or says that the text is none. -/
def ClassId.parse (text : String) : Except Error ClassId :=
  match ClassId.ofText? text with
  | some id => .ok id
  | none => .error (.format (.notAClassName text))

end ClassAtlas
