import ClassAtlas.Containment
import ClassAtlas.Member
import ClassAtlas.Profile

/-!
# Class files

A whole class file: its constant pool, the class with its members, and what the class
attributes say. From it come the references to other classes and the lines of a profile.
-/

namespace ClassAtlas

structure ClassAttributes where
  signature : Option String := none
  annotations : List String := []
  inners : InnerTable := {}

structure ClassFile where
  minorVersion : UInt16
  majorVersion : UInt16
  pool : ConstantPool
  flags : AccessFlags
  id : ClassId
  superclass : Option ClassId
  interfaces : List ClassId
  fields : List Member
  methods : List Member
  attributes : ClassAttributes

namespace ClassAttributes

/-- Decodes an entry of the inner-class table. One without an inner or an outer class
leaves the table as it is. -/
def readInner (pool : ConstantPool) (table : InnerTable) : Decoder InnerTable := do
  let inner ← Decoder.u2
  let outer ← Decoder.u2
  let _name ← Decoder.u2
  let flags ← Decoder.u2
  if inner = 0 ∨ outer = 0 then return table
  let inner ← Decoder.ofExcept (pool.classAt inner)
  let outer ← Decoder.ofExcept (pool.classAt outer)
  return table.insert inner.text { inner, outer, flags }

/-- Takes in one attribute, whose body the decoder is confined to. -/
def readBody (pool : ConstantPool) (name : String) (a : ClassAttributes) :
    Decoder ClassAttributes := do
  match name with
  | "InnerClasses" =>
    let count ← Decoder.u2
    return { a with inners := ← Decoder.iterate (readInner pool) count.toNat a.inners }
  | "Signature" => return { a with signature := some (← pool.readText) }
  | "RuntimeVisibleAnnotations" | "RuntimeInvisibleAnnotations" =>
    let more ← Decoder.counted (Annotations.read pool)
    return { a with annotations := a.annotations ++ more }
  | "RuntimeVisibleTypeAnnotations" | "RuntimeInvisibleTypeAnnotations" =>
    let more ← Annotations.readTypedTable pool
    return { a with annotations := a.annotations ++ more }
  | _ => return a

def readNext (pool : ConstantPool) (a : ClassAttributes) : Decoder ClassAttributes := do
  let name ← pool.readText
  let length ← Decoder.u4
  Decoder.within length.toNat (a.readBody pool name)

def read (pool : ConstantPool) : Decoder ClassAttributes := do
  let count ← Decoder.u2
  Decoder.iterate (readNext pool) count.toNat {}

end ClassAttributes

namespace ClassFile

def magic : UInt32 := 0xCAFEBABE

/-- The name of the method that initialises a class and is no part of any profile. -/
def initializerName : String := "<clinit>"

/-- Decodes the slot of a class, where slot zero stands for none. -/
def readOptionalClass (pool : ConstantPool) : Decoder (Option ClassId) := do
  let index ← Decoder.u2
  if index = 0 then return none
  return some (← Decoder.ofExcept (pool.classAt index))

/-- Fails unless the class found is the one expected, if any is. -/
def checkIdentity (expected : Option ClassId) (found : ClassId) : Decoder Unit :=
  match expected with
  | none => pure ()
  | some id => if id == found then pure () else throw (.identityMismatch id found)

/-- Decodes a class file, which must hold the expected class. Bytes behind it do not matter. -/
def read (expected : Option ClassId) : Decoder ClassFile := do
  let start ← Decoder.u4
  if start != magic then Decoder.fail .notAClassFile
  let minorVersion ← Decoder.u2
  let majorVersion ← Decoder.u2
  let pool ← ConstantPool.read
  let flags ← Decoder.u2
  let id ← pool.readClass
  checkIdentity expected id
  let superclass ← readOptionalClass pool
  let interfaces ← Decoder.counted pool.readClass
  let fields ← Decoder.counted (Member.read .field id pool)
  let methods ← Decoder.counted (Member.read .method id pool)
  let attributes ← ClassAttributes.read pool
  return { minorVersion, majorVersion, pool, flags, id, superclass, interfaces, fields,
           methods, attributes }

def decode (expected : Option ClassId) (bytes : List UInt8) : Except Error ClassFile :=
  match (read expected).run (.start bytes) with
  | .ok c _ => .ok c
  | .error e _ => .error e

theorem read_of_decode {expected : Option ClassId} {bytes : List UInt8} {c : ClassFile}
    (h : decode expected bytes = .ok c) : ∃ stop, read expected (.start bytes) = .ok c stop := by
  unfold decode at h
  split at h
  · next found stop hread =>
    obtain rfl := Except.ok.inj h
    exact ⟨stop, hread⟩
  · contradiction

/-- What the class is inside all the classes around it. -/
def concealment (c : ClassFile) : Concealment :=
  .within c.attributes.inners c.id c.flags

/-- The signature of a class without generic types. -/
def erasedSignature (c : ClassFile) : String :=
  String.join ((c.superclass.toList ++ c.interfaces).map fun id => "L" ++ id.text ++ ";")

/-- The generic signature, or else the erased one. -/
def signature (c : ClassFile) : String :=
  c.attributes.signature.getD c.erasedSignature

/-- Every class in the pool without its dimensions, in pool order. -/
def references (c : ClassFile) : List ClassName :=
  c.pool.classes.filterMap ClassId.className?

def members (c : ClassFile) : List Member :=
  c.fields ++ c.methods

/-- The word for what is declared, and the modifiers that only a class shows. -/
def declaration (c : ClassFile) : String :=
  if c.flags.has .enumeration then "enums"
  else if c.flags.has .annotationType then "annot"
  else if c.flags.has .interface then "iface"
  else "class" ++ (if c.flags.has .abstract then " abstract" else "")
    ++ (if c.flags.has .final then " final" else "")

def line (c : ClassFile) : String :=
  c.id.text ++ " " ++ c.declaration
    ++ Member.spaced (c.concealment.visibility.modifier?.toList ++ c.signature ::
      c.attributes.annotations)

/-- The lines of the class and its members, each with the level that it is shown at. -/
def shownLines (c : ClassFile) : List (String × Visibility) :=
  let hidden := c.concealment
  let methods := c.methods.filter fun m => m.name != initializerName
  let members := (c.fields ++ methods).filter fun m => !m.isSynthetic
  if hidden.anonymous || hidden.synthetic then []
  else ((c.line, hidden.visibility) ::
    members.map fun m => (m.line, hidden.visibility.meet m.visibility)).filter fun shown =>
      shown.2.isVisible

def addTo (c : ClassFile) (p : Profile) : Profile :=
  c.shownLines.foldl (fun p (line, level) => p.add line level.isPublicSurface) p

end ClassFile

namespace Profile

/-- The profile of a list of class files, without what they refer to. -/
def ofClassFiles (files : List (List UInt8)) : Except Error Profile :=
  files.foldlM (fun p bytes => return (← ClassFile.decode none bytes).addTo p) {}

end Profile

end ClassAtlas
