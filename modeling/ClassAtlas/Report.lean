import ClassAtlas.ClassPath
import ClassAtlas.Survey

/-!
# Reports

The lists that a finished survey is written down in: its two profiles, the class files
and the sources of the internal classes, and the packages used and provided. Every list
is sorted and is written with one entry to a line.
-/

namespace ClassAtlas

structure Findings where
  profile : Profile
  frontier : Frontier
  analyzed : Nat

/-- Strings in the order of their code points. -/
def sortedTexts (texts : List String) : List String :=
  texts.mergeSort fun a b => a ≤ b

namespace Frontier

/-- The class files of the internal classes, relative to their roots. -/
def classList (f : Frontier) : List String :=
  sortedTexts (f.internal.toList.map fun name => name.pathBelow .binary "")

/-- The classes whose sources are found under a source root, with their paths. -/
def foundSources (f : Frontier) (t : FileTree) (sourceRoots : List String) :
    List (ClassName × String) :=
  f.sources.toList.filterMap fun name =>
    (t.find? .source sourceRoots (.ofName name)).map (name, ·)

def sourceList (f : Frontier) (t : FileTree) (sourceRoots : List String) : List String :=
  sortedTexts ((f.foundSources t sourceRoots).map fun (name, _) =>
    (ClassId.ofName name).external)

/-- Makefile lines that add each source found to the source list of a tree. -/
def makeLines (f : Frontier) (t : FileTree) (tree : String) (sourceRoots : List String) :
    List String :=
  sortedTexts ((f.foundSources t sourceRoots).map fun (name, _) =>
    "srclist-" ++ tree ++ " += " ++ name.pathBelow .source "")

end Frontier

inductive ReportKind where
  | api | ppi | list | deps | srclist | imports | exports
deriving DecidableEq

namespace ReportKind

def all : List ReportKind :=
  [api, ppi, list, deps, srclist, imports, exports]

/-- The name of the option and the field that asks for the report. -/
def label : ReportKind → String
  | api => "api"
  | ppi => "ppi"
  | list => "list"
  | deps => "deps"
  | srclist => "srclist"
  | imports => "imports"
  | exports => "exports"

def ofLabel? (text : String) : Option ReportKind :=
  all.find? fun kind => kind.label == text

end ReportKind

def Findings.lines (findings : Findings) (t : FileTree) (tree : String)
    (sourceRoots : List String) : ReportKind → List String
  | .api => findings.profile.publicLines.toList
  | .ppi => findings.profile.packageLines.toList
  | .list => findings.frontier.classList
  | .deps => findings.frontier.makeLines t tree sourceRoots
  | .srclist => findings.frontier.sourceList t sourceRoots
  | .imports => findings.frontier.imports.toList
  | .exports => findings.frontier.exports.toList

namespace FileTree

def linesContent (lines : List String) : List UInt8 :=
  (String.join (lines.map (· ++ "\n"))).toUTF8.toList

/-- Writes one line for each entry, and makes the directory of the file where it is missing. -/
def writeLines (path : String) (lines : List String) : EStateM Error FileTree Unit := fun t =>
  let made : EStateM.Result FileFault FileTree Unit :=
    match Path.parent? path with
    | none => .ok () t
    | some parent => if parent.isEmpty then .ok () t else makeDirectories parent t
  match made with
  | .error fault t => .error (.file ((Path.parent? path).getD "") fault) t
  | .ok _ t =>
    match write path (linesContent lines) t with
    | .error fault t => .error (.file path fault) t
    | .ok _ t => .ok () t

end FileTree

end ClassAtlas
