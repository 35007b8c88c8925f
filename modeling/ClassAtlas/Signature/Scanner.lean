import ClassAtlas.Error

/-!
# Scanning signatures

The state of a parser on its way through a signature: the characters ahead, the number
of UTF-8 bytes behind, the steps taken so far and the classes found. A failure keeps the
state, and so the classes found before it. Steps are counted and bounded, so that
`repeated` ends.
-/

namespace ClassAtlas.Signature

/-- Where a parser stands, and what it has found on the way. -/
structure Scanner where
  rest : List Char
  position : Nat := 0
  steps : Nat := 0
  found : Array ClassId := #[]

structure Stop where
  position : Nat
  fault : SignatureFault

abbrev Scan := EStateM Stop Scanner

namespace Scan

/-- The number of steps that may be taken in one signature. -/
def maxSteps : Nat := 200000

def fail {α : Type} (fault : SignatureFault) : Scan α := do
  throw ⟨(← get).position, fault⟩

/-- The number of bytes that characters take in UTF-8. -/
def bytes (chars : List Char) : Nat :=
  chars.foldl (fun n c => n + c.utf8Size) 0

@[simp] theorem bytes_nil : bytes [] = 0 := rfl

theorem foldl_bytes (n : Nat) (chars : List Char) :
    chars.foldl (fun n c => n + c.utf8Size) n = n + bytes chars := by
  induction chars generalizing n with
  | nil => rfl
  | cons c rest ih => simp only [bytes, List.foldl_cons, ih (n + _), ih (0 + _)]; omega

@[simp] theorem bytes_cons (c : Char) (rest : List Char) :
    bytes (c :: rest) = c.utf8Size + bytes rest := by
  rw [bytes, List.foldl_cons, foldl_bytes, Nat.zero_add]

@[simp] theorem bytes_append (front rest : List Char) :
    bytes (front ++ rest) = bytes front + bytes rest := by
  induction front with
  | nil => simp
  | cons c front ih => simp [ih, Nat.add_assoc]

/-- The next character, which stays ahead. -/
def peek : Scan (Option Char) := return (← get).rest.head?

def bump : Scan Unit := modify fun s =>
  match s.rest with
  | [] => s
  | c :: rest => { s with rest, position := s.position + c.utf8Size }

/-- Passes over characters, given as the passed ones and those behind them. -/
def pass (passed rest : List Char) : Scan Unit := modify fun s =>
  { s with rest, position := s.position + bytes passed }

def expect (c : Char) : Scan Unit := do
  if (← peek) = some c then bump else fail (.expected c)

def accept (c : Char) : Scan Bool := do
  if (← peek) = some c then
    bump
    return true
  return false

def tick : Scan Unit := do
  modify fun s => { s with steps := s.steps + 1 }
  if maxSteps < (← get).steps then fail .tooManyElements

def submit (id : ClassId) : Scan Unit := modify fun s =>
  { s with found := s.found.push id }

/-- Fails unless everything has been read. -/
def finish : Scan Unit := do
  if (← peek).isSome then fail .trailingCharacters

/-- Runs a production for as long as it finds something, at most so many times. -/
def repeatedFor (production : Scan Bool) : Nat → Scan Unit
  | 0 => fail .tooManyElements
  | rounds + 1 => do
    if ← production then
      tick
      repeatedFor production rounds

/-- Runs a production for as long as it finds something. Each find is a step, so the
bound on steps ends the repetition before the rounds run out. -/
def repeated (production : Scan Bool) : Scan Unit :=
  repeatedFor production (maxSteps + 1)

/-- The first production that finds something. -/
def either (first second : Scan Bool) : Scan Bool := do
  if ← first then return true
  second

end Scan

end ClassAtlas.Signature
