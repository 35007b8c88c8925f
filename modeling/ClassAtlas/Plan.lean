import ClassAtlas.Report

/-!
# Plans

What a survey of a tree starts from and which reports it ends in, and the survey of a
file tree that a plan describes.
-/

namespace ClassAtlas

structure Plan where
  /-- The name of the tree in makefile lines. -/
  tree : String := "default"
  sourceRoots : List String := []
  /-- Directories with class files; a class found there is internal. -/
  classRoots : List String := []
  roots : List ClassId := []
  /-- Whether to start from every class file under the class roots, too. -/
  allClasses : Bool := false
  /-- Whether the types of fields and methods are followed. -/
  followsMembers : Bool := false
  /-- The paths of the reports that are asked for. -/
  reports : List (ReportKind × String) := []

namespace Plan

/-- The path of a class file is shorter than `FileTree.maxPath`, so there are no more
internal classes than texts of such a length. -/
def visitBound : Nat :=
  Nat.pow 256 FileTree.maxPath

def starts (plan : Plan) (t : FileTree) : Except Error (List ClassId) := do
  if plan.allClasses then
    return plan.roots ++ (← plan.classRoots.mapM t.discover).flatten
  else return plan.roots

def analyze (plan : Plan) (t : FileTree) : Except Error Findings := do
  let starts ← plan.starts t
  let survey := starts.foldl Survey.submit
    (.start (.ofClassPath t plan.classRoots) plan.followsMembers)
  let load : ClassName → Id (Except Error (List UInt8)) := t.loadClass plan.classRoots
  match Id.run (survey.run load visitBound) with
  | (.failed e, _) => throw e
  | (_, s) => return { profile := s.profile, frontier := s.frontier, analyzed := s.analyzed }

def reportPath? (plan : Plan) (kind : ReportKind) : Option String :=
  plan.reports.lookup kind

def writeReports (plan : Plan) (findings : Findings) : EStateM Error FileTree Unit :=
  ReportKind.all.forM fun kind => do
    if let some path := plan.reportPath? kind then
      FileTree.writeLines path (findings.lines (← get) plan.tree plan.sourceRoots kind)

def carryOut (plan : Plan) : EStateM Error FileTree Findings := do
  match plan.analyze (← get) with
  | .error e => throw e
  | .ok findings =>
    plan.writeReports findings
    return findings

end Plan

end ClassAtlas
