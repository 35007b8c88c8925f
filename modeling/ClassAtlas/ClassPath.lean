import ClassAtlas.FileTree
import ClassAtlas.Frontier
import ClassAtlas.Text.Blank

/-!
# Class paths

Where classes lie in a file tree. A class has one file below each root: its segments are
the steps, and the last one gets a suffix. A class path is a list of roots with class
files, and the first root with a file for a class is the one that counts. `discover` goes
the other way, from the class files below a root to their classes.
-/

namespace ClassAtlas

/-- What a file holds for a class. -/
inductive FileKind where
  | source | binary
deriving DecidableEq

def FileKind.suffix : FileKind → String
  | source => ".java"
  | binary => ".class"

/-- The path of a class below a root. Nested classes have source paths of their own here. -/
def ClassName.pathBelow (kind : FileKind) (root : String) (name : ClassName) : String :=
  let segments := name.segments
  Path.push (segments.dropLast.foldl Path.push root) (segments.getLastD "" ++ kind.suffix)

/-- The path below a root, which array types do not have. -/
def ClassId.pathBelow? (kind : FileKind) (root : String) : ClassId → Option String
  | .object 0 name => some (name.pathBelow kind root)
  | _ => none

namespace FileTree

/-- The path of a class below the first root where there is something at it. -/
def find? (t : FileTree) (kind : FileKind) (roots : List String) (id : ClassId) :
    Option String :=
  (roots.filterMap fun root => id.pathBelow? kind root).find? t.hasPath

/-- The name of the class file without its suffix. A name that starts with its only dot
has no suffix, and a dot that is left alone counts as the directory above. -/
def classFileStem? (name : String) : Option String :=
  match name.toList.reverse.span (· != '.') with
  | (['s', 's', 'a', 'l', 'c'], '.' :: stem) =>
    if stem.isEmpty then none
    else if stem == ['.'] then some ".."
    else some (String.ofList stem.reverse)
  | _ => none

/-- The text of the class that a class file at this location below a root is for. -/
def classTextAt? (location : Location) : Option String := do
  let name ← location.getLast?
  let stem ← classFileStem? name
  return "/".intercalate (location.dropLast ++ [stem])

/-- The classes of all class files below a root, by the way they are written. -/
def discover (t : FileTree) (root : String) : Except Error (List ClassId) := do
  match t.resolve root with
  | .error fault => throw (.walk root fault)
  | .ok top =>
    let texts := (t.filesBelow top).filterMap fun (location, _) => classTextAt? location
    return (← texts.mapM ClassId.parse).mergeSort fun a b => a.text ≤ b.text

def loadClass (t : FileTree) (roots : List String) (name : ClassName) :
    Except Error (List UInt8) :=
  match t.find? .binary roots (.ofName name) with
  | none => .error (.format (.noClassFile (.ofName name)))
  | some path => (t.read path).mapError (.file path)

end FileTree

/-- The entries of a list with colons between them, without the blanks around them and
without empty ones. -/
def splitPathList (list : String) : List String :=
  ((list.toList.splitOn ':').map fun entry => Text.trimBlanks (String.ofList entry)).filter
    fun entry => !entry.isEmpty

def Probe.ofClassPath (t : FileTree) (roots : List String) : Probe where
  contains id := (t.find? .binary roots id).isSome
  locate? := t.find? .binary roots

end ClassAtlas
