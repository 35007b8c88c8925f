/-!
# Access flags and visibility

The sixteen access flags of a class, a member or an entry of the inner-class table, and
the four levels of visibility they encode. Levels are ordered from private to public,
and what stands inside a container is at most as visible as the container.
-/

namespace ClassAtlas

abbrev AccessFlags := UInt16

namespace AccessFlags

def publicAccess : AccessFlags := 0x0001
def privateAccess : AccessFlags := 0x0002
def protectedAccess : AccessFlags := 0x0004
def static : AccessFlags := 0x0008
def final : AccessFlags := 0x0010
/-- On fields; `bridge` is the same bit on methods. -/
def volatile : AccessFlags := 0x0040
def bridge : AccessFlags := 0x0040
/-- On fields; `varargs` is the same bit on methods. -/
def transient : AccessFlags := 0x0080
def varargs : AccessFlags := 0x0080
def interface : AccessFlags := 0x0200
def abstract : AccessFlags := 0x0400
def synthetic : AccessFlags := 0x1000
def annotationType : AccessFlags := 0x2000
def enumeration : AccessFlags := 0x4000

def has (flags flag : AccessFlags) : Bool :=
  flags &&& flag != 0

end AccessFlags

/-- Access levels, from the most to the least restrictive. -/
inductive Visibility where
  | privateAccess
  | packageAccess
  | protectedAccess
  | publicAccess
deriving DecidableEq

namespace Visibility

/-- The access level a set of flags encodes. Of several access flags the protected one
counts first, then the public one. -/
def ofFlags (flags : AccessFlags) : Visibility :=
  if flags.has .protectedAccess then protectedAccess
  else if flags.has .publicAccess then publicAccess
  else if flags.has .privateAccess then privateAccess
  else packageAccess

def rank : Visibility → Nat
  | privateAccess => 0
  | packageAccess => 1
  | protectedAccess => 2
  | publicAccess => 3

instance : LE Visibility := ⟨fun a b => a.rank ≤ b.rank⟩

instance (a b : Visibility) : Decidable (a ≤ b) :=
  inferInstanceAs (Decidable (a.rank ≤ b.rank))

/-- The more restrictive of two levels. -/
def meet (a b : Visibility) : Visibility :=
  if a ≤ b then a else b

@[simp] theorem rank_meet (a b : Visibility) : (a.meet b).rank = min a.rank b.rank := by
  unfold meet
  split
  · next h => exact (Nat.min_eq_left h).symm
  · next h => exact (Nat.min_eq_right (Nat.le_of_not_le h)).symm

/-- Whether other packages can compile against it. -/
def isPublicSurface : Visibility → Bool
  | protectedAccess | publicAccess => true
  | privateAccess | packageAccess => false

/-- Whether anything outside the class can see it. -/
def isVisible (v : Visibility) : Bool :=
  v != privateAccess

/-- The access modifier, which the package level lacks. -/
def modifier? : Visibility → Option String
  | publicAccess => some "public"
  | protectedAccess => some "protected"
  | privateAccess => some "private"
  | packageAccess => none

end Visibility

end ClassAtlas
