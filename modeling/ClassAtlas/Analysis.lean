import ClassAtlas.ClassFile

/-!
# Analyses

A place that holds one class file at a time. Loading replaces what is there, and a load
that fails leaves the place empty. What an empty place is asked for is answered with
nothing: no id, no flags, no members.
-/

namespace ClassAtlas

/-- A class file, or none. -/
structure Analysis where
  current : Option ClassFile := none

namespace Analysis

/-- Decodes a class file, which must hold the expected class, into the place. -/
def load (expected : Option ClassId) (bytes : List UInt8) : EStateM Error Analysis Unit := fun _ =>
  match ClassFile.decode expected bytes with
  | .ok c => .ok () ⟨some c⟩
  | .error e => .error e {}

def clear : EStateM Error Analysis Unit :=
  set ({} : Analysis)

/-- Something about the class file that is there, or what is said of none. -/
def ask {α : Type} (a : Analysis) (ofNone : α) (question : ClassFile → α) : α :=
  match a.current with
  | none => ofNone
  | some c => question c

def isLoaded (a : Analysis) : Bool :=
  a.current.isSome

def id? (a : Analysis) : Option ClassId :=
  a.current.map (·.id)

def flags (a : Analysis) : AccessFlags :=
  a.ask 0 (·.flags)

def visibility? (a : Analysis) : Option Visibility :=
  a.current.map (·.concealment.visibility)

def isSynthetic (a : Analysis) : Bool :=
  a.ask false (·.concealment.synthetic)

/-- Whether the class or one around it is anonymous. -/
def isAnonymous (a : Analysis) : Bool :=
  a.ask false (·.concealment.anonymous)

def signature? (a : Analysis) : Option String :=
  a.current.map (·.signature)

def superclass? (a : Analysis) : Option ClassId :=
  a.current.bind (·.superclass)

def fields (a : Analysis) : List Member :=
  a.ask [] (·.fields)

def methods (a : Analysis) : List Member :=
  a.ask [] (·.methods)

def references (a : Analysis) : List ClassName :=
  a.ask [] (·.references)

def line? (a : Analysis) : Option String :=
  a.current.map (·.line)

def addTo (a : Analysis) (p : Profile) : Profile :=
  a.ask p (·.addTo p)

end Analysis

end ClassAtlas
