import Std.Data.TreeSet

/-!
# Profiles

The lines that describe what can be compiled against: the package profile holds all of
them, the public profile those that other packages can see. Both are sorted sets, so the
order in which classes are looked at leaves no mark.
-/

namespace ClassAtlas

structure Profile where
  publicLines : Std.TreeSet String := {}
  packageLines : Std.TreeSet String := {}

namespace Profile

/-- Records a line in the package profile, and in the public one if it belongs there. -/
def add (p : Profile) (line : String) (isPublic : Bool) : Profile where
  publicLines := if isPublic then p.publicLines.insert line else p.publicLines
  packageLines := p.packageLines.insert line

@[simp] theorem mem_packageLines_add {p : Profile} {line other : String} {isPublic : Bool} :
    other ∈ (p.add line isPublic).packageLines ↔ line = other ∨ other ∈ p.packageLines := by
  simp [add]

@[simp] theorem mem_publicLines_add {p : Profile} {line other : String} {isPublic : Bool} :
    other ∈ (p.add line isPublic).publicLines ↔
      isPublic = true ∧ line = other ∨ other ∈ p.publicLines := by
  cases isPublic <;> simp [add]

def isEmpty (p : Profile) : Bool :=
  p.packageLines.isEmpty && p.publicLines.isEmpty

def union (p q : Profile) : Profile where
  publicLines := p.publicLines.insertMany q.publicLines.toList
  packageLines := p.packageLines.insertMany q.packageLines.toList

def same (p q : Profile) : Bool :=
  p.publicLines.toList == q.publicLines.toList && p.packageLines.toList == q.packageLines.toList

end Profile

end ClassAtlas
