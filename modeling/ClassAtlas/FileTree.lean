import Std.Data.TreeMap
import ClassAtlas.Error
import ClassAtlas.Path

/-!
# File trees

A file system as a value: directories and files under the names that lead to them. Paths
are followed step by step, and a step can only be taken from a directory. `stat`, `read`,
`makeDirectory`, `makeDirectories` and `write` fail for the reasons for which a POSIX
system makes them fail, links and permissions apart.
-/

namespace ClassAtlas

inductive FileNode where
  | file (content : List UInt8)
  | directory
deriving DecidableEq

/-- The names that lead from the top to a node. -/
abbrev Location := List String

/-- A tree of directories and files. The top is a directory and not in the table. -/
structure FileTree where
  nodes : Std.TreeMap Location FileNode := {}
  /-- Where relative paths start. -/
  workingDirectory : Location := []

namespace FileTree

/-- The number of bytes that a name may have. -/
def maxName : Nat := 255

/-- The number of bytes below which the length of a path must stay. -/
def maxPath : Nat := 4096

def node? (t : FileTree) (location : Location) : Option FileNode :=
  if location.isEmpty then some .directory else t.nodes[location]?

@[simp] theorem node?_nil (t : FileTree) : t.node? [] = some .directory := rfl

/-- The texts between the slashes. -/
def stepsOf (path : String) : List String :=
  (path.toList.splitOn '/').map String.ofList

def origin (t : FileTree) (path : String) : Location :=
  if path.toList.head? = some '/' then [] else t.workingDirectory

/-- Where a path would lead if every step could be taken. -/
def locationOf (t : FileTree) (path : String) : Location :=
  (stepsOf path).foldl (fun location step =>
    if step = "" ∨ step = "." then location
    else if step = ".." then location.dropLast
    else location ++ [step]) (t.origin path)

def descend (t : FileTree) : Location → List String → Except FileFault Location
  | location, [] => .ok location
  | location, step :: steps =>
    if t.node? location ≠ some .directory then .error .notADirectory
    else if step = "" ∨ step = "." then descend t location steps
    else if step = ".." then descend t location.dropLast steps
    else if maxName < step.utf8ByteSize then .error .nameTooLong
    else if (t.node? (location ++ [step])).isNone then .error .missing
    else descend t (location ++ [step]) steps

/-- Refuses texts that are no paths. -/
def checkPath (path : String) : Except FileFault Unit :=
  if '\x00' ∈ path.toList then .error .nulInPath
  else if path.isEmpty then .error .missing
  else if maxPath ≤ path.utf8ByteSize then .error .nameTooLong
  else .ok ()

/-- Where a path leads. -/
def resolve (t : FileTree) (path : String) : Except FileFault Location := do
  checkPath path
  t.descend (t.origin path) (stepsOf path)

def stat (t : FileTree) (path : String) : Except FileFault FileNode := do
  return (t.node? (← t.resolve path)).getD .directory

def hasPath (t : FileTree) (path : String) : Bool :=
  match t.stat path with
  | .ok _ => true
  | .error _ => false

def isDirectory (t : FileTree) (path : String) : Bool :=
  match t.stat path with
  | .ok .directory => true
  | _ => false

def read (t : FileTree) (path : String) : Except FileFault (List UInt8) := do
  match ← t.stat path with
  | .file content => return content
  | .directory => throw .isADirectory

/-- Where something can be made: a directory and a name in it. There is no name where the
path ends in the directory itself or in the one above. -/
structure Entry where
  parent : Location
  name : Option String
  /-- Whether slashes follow the name. -/
  slashed : Bool

/-- The entry that a path names, whether or not it exists. -/
def entry (t : FileTree) (path : String) : Except FileFault Entry := do
  checkPath path
  let steps := stepsOf path
  let plain := (steps.reverse.dropWhile (· == "")).reverse
  let parent ← t.descend (t.origin path) plain.dropLast
  if t.node? parent ≠ some .directory then throw .notADirectory
  match plain.getLast? with
  | none => return ⟨parent, none, true⟩
  | some last =>
    if last = "." ∨ last = ".." then return ⟨parent, none, true⟩
    return ⟨parent, some last, plain.length < steps.length⟩

def makeDirectory (path : String) : EStateM FileFault FileTree Unit := fun t =>
  match t.entry path with
  | .error e => .error e t
  | .ok ⟨_, none, _⟩ => .error .alreadyExists t
  | .ok ⟨parent, some name, _⟩ =>
    if maxName < name.utf8ByteSize then .error .nameTooLong t
    else if (t.node? (parent ++ [name])).isSome then .error .alreadyExists t
    else .ok () { t with nodes := t.nodes.insert (parent ++ [name]) .directory }

def ensureDirectory (path : String) : EStateM FileFault FileTree Unit := fun t =>
  match makeDirectory path t with
  | .ok _ t => .ok () t
  | .error e t => if t.isDirectory path then .ok () t else .error e t

/-- Makes a directory and, as far as they are missing, those above it: at most so many. -/
def makeDirectoriesIn : Nat → String → EStateM FileFault FileTree Unit
  | 0, path => ensureDirectory path
  | above + 1, path => fun t =>
    if path.isEmpty then .ok () t
    else match ensureDirectory path t with
      | .error .missing t =>
        match Path.parent? path with
        | none => .error .missing t
        | some parent => (do makeDirectoriesIn above parent; ensureDirectory path) t
      | result => result

/-- Makes a directory and all that are missing above it. -/
def makeDirectories (path : String) : EStateM FileFault FileTree Unit :=
  makeDirectoriesIn (path.length + 1) path

/-- Makes a file with the given content, or replaces that of an existing one. -/
def write (path : String) (content : List UInt8) : EStateM FileFault FileTree Unit := fun t =>
  match t.entry path with
  | .error e => .error e t
  | .ok ⟨_, none, _⟩ | .ok ⟨_, _, true⟩ => .error .isADirectory t
  | .ok ⟨parent, some name, false⟩ =>
    if maxName < name.utf8ByteSize then .error .nameTooLong t
    else if t.node? (parent ++ [name]) = some .directory then .error .isADirectory t
    else .ok () { t with nodes := t.nodes.insert (parent ++ [name]) (.file content) }

/-- The names that lead from `top` to a location below it. -/
def below? : Location → Location → Option Location
  | [], location => some location
  | name :: top, step :: location => if name = step then below? top location else none
  | _ :: _, [] => none

@[simp] theorem below?_append (top location : Location) :
    below? top (top ++ location) = some location := by
  induction top with
  | nil => simp [below?]
  | cons name top ih => simp [below?, ih]

theorem below?_eq_some_iff {top location below : Location} :
    below? top location = some below ↔ location = top ++ below := by
  constructor
  · intro h
    induction top generalizing location with
    | nil => simpa [below?] using h
    | cons name top ih =>
      cases location with
      | nil => simp [below?] at h
      | cons step location =>
        simp only [below?] at h
        split at h
        · next hn => rw [ih h, hn]; rfl
        · contradiction
  · rintro rfl
    exact below?_append top below

/-- The files below a location, in the order of a walk that takes each directory's
entries by name. -/
def filesBelow (t : FileTree) (top : Location) : List (Location × List UInt8) :=
  t.nodes.toList.filterMap fun
    | (location, .file content) => (below? top location).map (·, content)
    | (_, .directory) => none

end FileTree

end ClassAtlas
