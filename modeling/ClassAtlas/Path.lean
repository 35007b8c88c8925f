/-!
# Paths

Paths are texts in which slashes separate steps. A path that starts with a slash is
absolute. `push` adds a step, `components` says what a path is made of, in which empty
steps and dots after the first step count for nothing, and `parent?` is the path without
its last component.
-/

namespace ClassAtlas.Path

inductive Component where
  | root
  /-- A dot at the very front. -/
  | here
  | up
  | name (text : String)
deriving DecidableEq

/-- Whether a slash has to be put between a path and what is added to it. -/
def needsSlash (path : String) : Bool :=
  match path.back? with
  | none => false
  | some c => c != '/'

/-- The path with a step added. A step that starts with a slash takes the place of the path. -/
def push (path step : String) : String :=
  if step.toList.head? = some '/' then step
  else if needsSlash path then path ++ "/" ++ step
  else path ++ step

@[simp] theorem push_empty (step : String) : push "" step = step := by
  have none_needed : needsSlash "" = false := by decide +kernel
  simp [push, none_needed]

/-- Splits off what only counts at the front of a path: a slash or a dot of its own. -/
def splitFront : List Char → List Char × List Char
  | '/' :: rest => (['/'], rest)
  | ['.'] => (['.'], [])
  | '.' :: '/' :: rest => (['.'], '/' :: rest)
  | path => ([], path)

/-- Whether a step behind the front stays where it is. -/
def isIdle (step : List Char) : Bool :=
  step == [] || step == ['.']

/-- What a step behind the front counts for. -/
def component? (step : List Char) : Option Component :=
  if isIdle step then none
  else if step == ['.', '.'] then some .up
  else some (.name (String.ofList step))

def frontComponents : List Char → List Component
  | ['/'] => [.root]
  | ['.'] => [.here]
  | _ => []

def components (path : String) : List Component :=
  let (front, rest) := splitFront path.toList
  frontComponents front ++ (rest.splitOn '/').filterMap component?

/-- The steps up to the last that counts. -/
def withoutIdleEnd (steps : List (List Char)) : List (List Char) :=
  (steps.reverse.dropWhile isIdle).reverse

/-- The path up to its last component, which the root and the empty path do not have. -/
def parent? (path : String) : Option String :=
  let (front, rest) := splitFront path.toList
  match withoutIdleEnd (rest.splitOn '/') with
  | [] => if front == ['.'] then some "" else none
  | steps =>
    some (String.ofList (front ++ ['/'].intercalate (withoutIdleEnd steps.dropLast)))

end ClassAtlas.Path
