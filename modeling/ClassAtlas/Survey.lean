import ClassAtlas.ClassFile
import ClassAtlas.Frontier

/-!
# Surveys

A survey looks at every internal class that the submitted classes lead to. The class
file of each is decoded once; its references go back to the frontier and its lines into
the profile. Where a class file comes from is up to the caller. The number of class files
looked at in one run is bounded, and `Run.unfinished` says that the bound was met first.
-/

namespace ClassAtlas

structure Survey where
  frontier : Frontier
  profile : Profile := {}
  /-- Whether the types of fields and methods are followed, too. -/
  followsMembers : Bool := false
  /-- The number of class files decoded. -/
  analyzed : Nat := 0

inductive Run where
  | finished
  | failed (error : Error)
  | unfinished
deriving DecidableEq

/-- The form of a member's descriptor. -/
def MemberKind.signatureKind : MemberKind → SignatureKind
  | field => .ofType
  | method => .ofMethod

/-- What a class file tells of other classes, in the order in which it is followed. -/
def ClassFile.submissions (c : ClassFile) (followsMembers : Bool) : List Submission :=
  c.references.map (fun name => .single (.ofName name))
    ++ .signature .ofClass c.signature
    :: if followsMembers then
        c.members.map fun m => .signature m.kind.signatureKind m.descriptor
      else []

namespace Survey

def start (probe : Probe) (followsMembers : Bool) : Survey where
  frontier := { probe }
  followsMembers := followsMembers

def submit (s : Survey) (id : ClassId) : Survey :=
  { s with frontier := s.frontier.submit id }

def follow (submissions : List Submission) : EStateM Error Survey Unit := fun s =>
  match (submissions.forM ClassSink.accept : EStateM Error Frontier Unit).run s.frontier with
  | .ok _ frontier => .ok () { s with frontier }
  | .error e frontier => .error e { s with frontier }

/-- Looks at one class file, which must hold the given class. -/
def visit (id : ClassId) (bytes : List UInt8) : EStateM Error Survey Unit := do
  match ClassFile.decode (some id) bytes with
  | .error e => throw e
  | .ok c =>
    follow (c.submissions (← get).followsMembers)
    modify fun s => { s with profile := c.addTo s.profile, analyzed := s.analyzed + 1 }

/-- Looks at outstanding classes, at most so many, and stops at the first failure. -/
def run {m : Type → Type} [Monad m] (load : ClassName → m (Except Error (List UInt8))) :
    Nat → Survey → m (Run × Survey)
  | 0, s => pure (if s.frontier.hasNext then .unfinished else .finished, s)
  | visits + 1, s =>
    match s.frontier.next with
    | (none, _) => pure (.finished, s)
    | (some name, frontier) => do
      let s := { s with frontier }
      match ← load name with
      | .error e => pure (.failed (.inClass (.ofName name) e), s)
      | .ok bytes =>
        match (visit (.ofName name) bytes).run s with
        | .ok _ s => run load visits s
        | .error e s => pure (.failed (.inClass (.ofName name) e), s)

end Survey

end ClassAtlas
