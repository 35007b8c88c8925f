import ClassAtlas.CommandLine.Arguments

/-!
# The command line

What each command does to a file tree, and what the program prints. A command that fails
prints what it was about and then every cause, numbered when there are several.
-/

namespace ClassAtlas.CommandLine

structure Ending where
  status : Nat := 0
  output : String := ""
  errorOutput : String := ""

/-- What a command was about when it failed, and the causes from the nearest on. -/
structure Failure where
  about : String
  causes : List String

namespace Failure

/-- A text whose later lines start with so many blanks. -/
def hanging (blanks : Nat) (text : String) : String :=
  String.ofList (text.toList.flatMap fun c =>
    if c = '\n' then '\n' :: List.replicate blanks ' ' else [c])

/-- A cause behind its number, which ends in the fifth column. -/
def numbered (number : Nat) (cause : String) : String :=
  let digits := toString number
  String.ofList (List.replicate (5 - digits.length) ' ') ++ digits ++ ": " ++ hanging 7 cause

def message (f : Failure) : String :=
  let causes :=
    match f.causes with
    | [] => ""
    | [cause] => "\n\nCaused by:\n    " ++ hanging 4 cause
    | causes =>
      "\n\nCaused by:" ++
        String.join (causes.zipIdx.map fun (cause, number) => "\n" ++ numbered number cause)
  "Error: " ++ f.about ++ causes ++ "\n"

end Failure

abbrev Action := EStateM Failure FileTree

def versionLine : String := "classdeps 0.1.0\n"

def helpText : String :=
  "Classfile dependency closure and API profiles\n\n" ++
  "Usage: classdeps [OPTIONS] <COMMAND>\n\n" ++
  "Commands:\n" ++
  "  analyze  Follow references from root classes and write the reports\n" ++
  "  profile  Print the profile of classfiles\n" ++
  "  refs     Print the runtime class references of classfiles\n"

def linesText (lines : List String) : String :=
  String.join (lines.map (· ++ "\n"))

def readRoots (roots : List String) : Except Failure (List ClassId) :=
  roots.mapM fun root =>
    (ClassId.parse root).mapError fun e => ⟨"bad root class '" ++ root ++ "'", e.trail⟩

/-- Surveys a tree, writes the reports and says how many classes there were. -/
def analyze (plan : Plan) (roots : List String) : Action String := fun t =>
  match readRoots roots with
  | .error failure => .error failure t
  | .ok ids =>
    match { plan with roots := ids }.carryOut t with
    | .error e t => .error ⟨"analysis failed", e.trail⟩ t
    | .ok findings t =>
      let f := findings.frontier
      .ok (toString findings.analyzed ++ " classes analyzed, " ++ toString f.internal.size
        ++ " internal, " ++ toString f.external.size ++ " external\n") t

def loadFile (t : FileTree) (path : String) : Except Failure ClassFile := do
  let bytes ← (t.read path).mapError fun fault => ⟨"reading " ++ path, [fault.message]⟩
  (ClassFile.decode none bytes).mapError fun e => ⟨"decoding " ++ path, e.trail⟩

/-- The profile of class files, or what is public of it. -/
def profile (onlyPublic : Bool) (files : List String) (t : FileTree) : Except Failure String := do
  let profile ← files.foldlM (fun p path => return (← loadFile t path).addTo p) ({} : Profile)
  return linesText (if onlyPublic then profile.publicLines else profile.packageLines).toList

def refs (files : List String) (t : FileTree) : Except Failure String := do
  let names ← files.foldlM (fun names path =>
    return names.insertMany (← loadFile t path).references) ({} : NameSet)
  return linesText (names.toList.map ClassName.text)

def perform : Command → Action String
  | .analyze plan roots => analyze plan roots
  | .profile onlyPublic files => fun t =>
    match profile onlyPublic files t with
    | .ok text => .ok text t
    | .error failure => .error failure t
  | .refs files => fun t =>
    match refs files t with
    | .ok text => .ok text t
    | .error failure => .error failure t

/-- The paths that the program reads or writes at. -/
def pathsOf (args : List String) : List String :=
  match readArguments args with
  | .error _ => []
  | .ok (.analyze plan _) => plan.classRoots ++ plan.sourceRoots ++ plan.reports.map (·.2)
  | .ok (.profile _ files) => files
  | .ok (.refs files) => files

/-- Runs the program on a file tree. Its status is 2 when the arguments make no sense and
1 when a command fails. -/
def run (args : List String) (t : FileTree) : Ending × FileTree :=
  match readArguments args with
  | .error .help => ({ output := helpText }, t)
  | .error .version => ({ output := versionLine }, t)
  | .error .misuse => ({ status := 2 }, t)
  | .ok command =>
    match perform command t with
    | .ok output t => ({ output }, t)
    | .error failure t => ({ status := 1, errorOutput := failure.message }, t)

end ClassAtlas.CommandLine
