import Mathlib.Logic.Function.Iterate
import ClassAtlas.Signature.Parser

/-!
# Signatures read task by task

The productions of signatures call each other, and what a call has yet to do is not part of the
scanner. Here it is: a `Moment` is a scanner together with the tasks ahead of it, which are the
open calls, the number of levels of types that these have entered, and the answer of the call
that came back last. `step` performs the first task, which is one action on the scanner at most,
and puts the calls that it makes before the other tasks. No task is performed after a failure.
-/

namespace ClassAtlas.Signature

open Scan

/-- The productions that answer whether they have found something. -/
inductive Production where
  | typeVariable | type | fieldType | arrayType | classType | typeArgument | bound
  | typeParameter | thrown
deriving DecidableEq

inductive Task where
  | expect (c : Char)
  | tick
  | finish
  /-- Goes back to the level around the one that was entered last. -/
  | leave
  | answer (found : Bool)
  | find (production : Production)
  /-- Calls the production if the last one has found nothing. -/
  | orElse (production : Production)
  /-- Counts a step and calls the production again if it has found something. -/
  | whileFound (production : Production)
  | packages
  /-- A simple class with its type arguments and suffixes. -/
  | simpleClass (outer : String)
  | name (outer : String)
  /-- Another simple class behind a dot, or the end of the class type. -/
  | suffix (outer : String)
  | typeArguments
  | typeParameters
  | returnType
deriving DecidableEq

/-- A scanner on its way through the tasks ahead. The levels are counted up and down, so the
count may be off and even negative as far as its type is concerned. -/
structure Moment extends Scanner where
  depth : Int := 0
  answer : Bool := false
  tasks : List Task
  stop? : Option Stop := none

namespace Moment

def push (m : Moment) (tasks : List Task) : Moment :=
  { m with tasks := tasks ++ m.tasks }

def answering (m : Moment) (found : Bool) : Moment :=
  { m with answer := found }

def failing (m : Moment) (stop : Stop) : Moment :=
  { m with tasks := [], stop? := some stop }

/-- Acts on the scanner and goes on from there, or fails. -/
def scan {α : Type} (m : Moment) (action : Scan α) (next : α → Moment → Moment) : Moment :=
  match action m.toScanner with
  | .ok a s => next a { m with toScanner := s }
  | .error stop s => failing { m with toScanner := s } stop

def entering (m : Moment) (tasks : List Task) : Moment :=
  let m := { m with depth := m.depth + 1 }
  if (maxLevels : Int) < m.depth then m.failing ⟨m.position, .nestedTooDeeply⟩ else m.push tasks

def typeFrom (m : Moment) : Option Char → Moment
  | none => m.answering false
  | some c =>
    if (Primitive.ofLetter? c).isSome then m.scan bump fun _ m => m.answering true
    else m.push [.find .fieldType]

def typeArgumentFrom (m : Moment) : Option Char → Moment
  | none => m.answering false
  | some '*' => m.scan bump fun _ m => m.answering true
  | some '+' | some '-' => m.scan bump fun _ m => m.push [.find .fieldType, .answer true]
  | some _ => m.push [.find .fieldType]

/-- The name of a type parameter. The colon that ends it is that of the first bound. -/
def parameterName (m : Moment) : Moment :=
  let (name, rest) := m.rest.span (· != ':')
  if rest.isEmpty then m.failing ⟨m.position, .missingBound⟩
  else m.scan (pass name rest) fun _ m =>
    m.push [.expect ':', .find .fieldType, .find .bound, .whileFound .bound, .answer true]

/-- A type parameter, unless the character ahead ends the row of them. -/
def typeParameterFrom (m : Moment) : Option Char → Moment
  | none | some '>' => m.answering false
  | some _ => m.parameterName

end Moment

def Production.perform (m : Moment) : Production → Moment
  | typeVariable => m.scan Signature.typeVariable fun found m => m.answering found
  | type => m.scan peek fun head m => m.typeFrom head
  | fieldType => m.push [.find classType, .orElse arrayType, .orElse typeVariable]
  | arrayType => m.scan (accept '[') fun found m =>
    if found then m.entering [.find type, .leave, .answer true] else m.answering false
  | classType => m.scan (accept 'L') fun found m =>
    if found then m.push [.packages, .answer true] else m.answering false
  | typeArgument => m.scan peek fun head m => m.typeArgumentFrom head
  | bound => m.scan (accept ':') fun found m =>
    if found then m.push [.find fieldType, .answer true] else m.answering false
  | typeParameter => m.scan peek fun head m => m.typeParameterFrom head
  | thrown => m.scan (accept '^') fun found m =>
    if found then m.push [.find typeVariable, .orElse classType, .answer true]
    else m.answering false

def Task.perform (m : Moment) : Task → Moment
  | expect c => m.scan (Scan.expect c) fun _ m => m
  | tick => m.scan Scan.tick fun _ m => m
  | finish => m.scan Scan.finish fun _ m => m
  | leave => { m with depth := m.depth - 1 }
  | answer found => m.answering found
  | find production => production.perform m
  | orElse production => if m.answer then m else m.push [find production]
  | whileFound production =>
    if m.answer then m.push [tick, find production, whileFound production] else m
  | packages => m.scan Signature.packages fun before m => m.push [simpleClass before]
  | simpleClass outer => m.push [tick, name outer]
  | name outer =>
    let (simple, rest) := m.rest.span (!endsName ·)
    let full := outer ++ String.ofList simple
    match ClassId.ofText? full with
    | none => m.failing ⟨m.position, .badClassName full⟩
    | some id =>
      m.scan (do submit id; pass simple rest) fun _ m => m.push [typeArguments, suffix full]
  | suffix outer => m.scan (accept '.') fun found m =>
    if found then m.push [simpleClass (outer ++ "$")] else m.push [expect ';']
  | typeArguments => m.scan (accept '<') fun found m =>
    if found then
      m.entering [find .typeArgument, whileFound .typeArgument, expect '>', leave]
    else m
  | typeParameters => m.scan (accept '<') fun found m =>
    if found then m.push [find .typeParameter, whileFound .typeParameter, expect '>'] else m
  | returnType => m.scan (accept 'V') fun found m => if found then m else m.push [find .type]

/-- Performs the first task. When there is none, nothing happens any more. -/
def step (m : Moment) : Moment :=
  match m.tasks with
  | [] => m
  | task :: below => task.perform { m with tasks := below }

def tasksOf : SignatureKind → List Task
  | .ofClass => [.typeParameters, .find .classType, .find .classType, .whileFound .classType,
      .finish]
  | .ofField => [.find .fieldType, .finish]
  | .ofMethod => [.typeParameters, .expect '(', .find .type, .whileFound .type, .expect ')',
      .returnType, .find .thrown, .whileFound .thrown, .finish]
  | .ofType => [.find .type, .finish]

def start (kind : SignatureKind) (text : String) : Moment :=
  { rest := text.toList, tasks := tasksOf kind }

/-- Where the reading of a signature stands after so many steps. -/
def momentAfter (steps : Nat) (kind : SignatureKind) (text : String) : Moment :=
  step^[steps] (start kind text)

end ClassAtlas.Signature
