import ClassAtlas.Plan

/-!
# Command line arguments

What the arguments of the program ask for. Options and other arguments may stand in any
order behind the name of a command. An option takes its value behind an equals sign or
from the next argument, short switches may be put together, and everything behind two
dashes is no option. Asking for help or for the version ends the reading at once.
-/

namespace ClassAtlas.CommandLine

inductive Halt where
  | help
  | version
  | misuse
deriving DecidableEq

/-- What an argument, or the two arguments of an option with a value, say. -/
inductive Item where
  | switch (name : String)
  | option (name value : String)
  | plain (text : String)

/-- What an option of a given name takes. -/
inductive Takes where
  | nothing
  | value

/-- The options of a command by their long names, and the long names of its letters. -/
structure Grammar where
  options : List (String × Takes)
  letters : List (Char × String)

namespace Grammar

/-- The item of a switch; some switches end the reading. -/
def switched (name : String) : Except Halt Item :=
  if name = "help" then .error .help
  else if name = "version" then .error .version
  else .ok (.switch name)

def letterItems (g : Grammar) : List Char → Except Halt (List Item)
  | [] => .ok []
  | c :: rest =>
    match g.letters.lookup c with
    | none => .error .misuse
    | some name => do
      let item ← switched name
      return item :: (← letterItems g rest)

def isValue (arg : String) : Bool :=
  arg.toList.head? != some '-' || arg == "-"

def readInto {σ : Type} (g : Grammar) (take : σ → Item → Except Halt σ) :
    σ → List String → Except Halt σ
  | s, [] => .ok s
  | s, arg :: rest =>
    match arg.toList with
    | '-' :: '-' :: [] => rest.foldlM (fun s text => take s (.plain text)) s
    | '-' :: '-' :: long =>
      let (name, value) := long.span (· != '=')
      let name := String.ofList name
      match g.options.lookup name, value with
      | none, _ => .error .misuse
      | some .nothing, [] => do readInto g take (← take s (← switched name)) rest
      | some .nothing, _ => .error .misuse
      | some .value, _ :: value => do
        readInto g take (← take s (.option name (String.ofList value))) rest
      | some .value, [] =>
        match rest with
        | [] => .error .misuse
        | value :: rest =>
          if isValue value then do readInto g take (← take s (.option name value)) rest
          else .error .misuse
    | '-' :: c :: letters => do
      readInto g take (← (← g.letterItems (c :: letters)).foldlM take s) rest
    | _ => do readInto g take (← take s (.plain arg)) rest

end Grammar

inductive Command where
  /-- Survey a tree. The roots are still texts. -/
  | analyze (plan : Plan) (roots : List String)
  /-- Print the profile of class files, or only what is public of it. -/
  | profile (onlyPublic : Bool) (files : List String)
  /-- Print the classes that class files refer to. -/
  | refs (files : List String)

def commonOptions : List (String × Takes) :=
  [("verbose", .nothing), ("help", .nothing)]

def commonLetters : List (Char × String) :=
  [('v', "verbose"), ('h', "help")]

structure AnalyzeArguments where
  tree : Option String := none
  plan : Plan := {}
  roots : List String := []

namespace AnalyzeArguments

def grammar : Grammar where
  options := commonOptions ++
    [("tree", .value), ("source-root", .value), ("class-root", .value),
     ("member-signatures", .nothing), ("all", .nothing)] ++
    ReportKind.all.map fun kind => (kind.label, .value)
  letters := commonLetters

/-- Options given once only must not come back, and paths must not be empty. -/
def take (a : AnalyzeArguments) : Item → Except Halt AnalyzeArguments
  | .switch "all" =>
    if a.plan.allClasses then .error .misuse
    else .ok { a with plan := { a.plan with allClasses := true } }
  | .switch "member-signatures" =>
    if a.plan.followsMembers then .error .misuse
    else .ok { a with plan := { a.plan with followsMembers := true } }
  | .switch _ => .ok a
  | .option "tree" value =>
    if a.tree.isSome then .error .misuse else .ok { a with tree := some value }
  | .option name value =>
    if value.isEmpty then .error .misuse
    else if name = "source-root" then
      .ok { a with plan := { a.plan with sourceRoots := a.plan.sourceRoots ++ [value] } }
    else if name = "class-root" then
      .ok { a with plan := { a.plan with classRoots := a.plan.classRoots ++ [value] } }
    else
      match ReportKind.ofLabel? name with
      | none => .error .misuse
      | some kind =>
        if (a.plan.reportPath? kind).isSome then .error .misuse
        else .ok { a with plan := { a.plan with reports := a.plan.reports ++ [(kind, value)] } }
  | .plain text => .ok { a with roots := a.roots ++ [text] }

def command (a : AnalyzeArguments) : Except Halt Command :=
  if a.plan.classRoots.isEmpty then .error .misuse
  else .ok (.analyze { a.plan with tree := a.tree.getD a.plan.tree } a.roots)

end AnalyzeArguments

structure FileArguments where
  onlyPublic : Bool := false
  files : List String := []

namespace FileArguments

def grammar (options : List (String × Takes)) : Grammar where
  options := commonOptions ++ options
  letters := commonLetters

def take (a : FileArguments) : Item → Except Halt FileArguments
  | .switch "public" =>
    if a.onlyPublic then .error .misuse else .ok { a with onlyPublic := true }
  | .plain text =>
    if text.isEmpty then .error .misuse else .ok { a with files := a.files ++ [text] }
  | _ => .ok a

/-- Reads the files of a command, of which there must be one at least. -/
def read (options : List (String × Takes)) (args : List String) : Except Halt FileArguments := do
  let a ← (grammar options).readInto take {} args
  if a.files.isEmpty then throw .misuse
  return a

end FileArguments

def commandNames : List String :=
  ["analyze", "profile", "refs", "help"]

def readCommand (name : String) (args : List String) : Except Halt Command :=
  match name with
  | "analyze" => do (← AnalyzeArguments.grammar.readInto AnalyzeArguments.take {} args).command
  | "profile" => do
    let a ← FileArguments.read [("public", .nothing)] args
    return .profile a.onlyPublic a.files
  | "refs" => return .refs (← FileArguments.read [] args).files
  | "help" =>
    match args with
    | [] => .error .help
    | [topic] => if topic ∈ commandNames then .error .help else .error .misuse
    | _ => .error .misuse
  | _ => .error .misuse

def frontGrammar : Grammar where
  options := commonOptions ++ [("version", .nothing)]
  letters := commonLetters ++ [('V', "version")]

def readArguments : List String → Except Halt Command
  | [] => .error .misuse
  | arg :: rest =>
    match arg.toList with
    | ['-'] => .error .misuse
    | '-' :: _ => do
      frontGrammar.readInto (fun _ item =>
        match item with
        | .plain _ => .error .misuse
        | _ => .ok ()) () [arg]
      if arg = "--" then throw .misuse
      readArguments rest
    | _ => readCommand arg rest

end ClassAtlas.CommandLine
