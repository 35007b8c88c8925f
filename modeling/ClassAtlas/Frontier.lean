import Std.Data.TreeSet
import ClassAtlas.Submission

/-!
# The frontier of a survey

Every class that was submitted, told apart by a probe into internal ones, which belong
to the tree, and external ones. A class counts without its dimensions, and once. Internal
classes wait to be looked at in the order in which they were first submitted.
-/

namespace ClassAtlas

/-- What is known about the classes of a tree. -/
structure Probe where
  /-- Whether a class belongs to the tree. -/
  contains : ClassId → Bool
  /-- The path of its class file, where the probe knows it. -/
  locate? : ClassId → Option String := fun _ => none

/-- A probe that knows a list of ids, by the way they are written. -/
def Probe.ofIds (known : List ClassId) : Probe :=
  let texts := Std.TreeSet.ofList (known.map ClassId.text)
  { contains := fun id => texts.contains id.text }

structure Frontier where
  probe : Probe
  internal : NameSet := {}
  external : NameSet := {}
  /-- The internal classes in the order in which they were met. -/
  order : Array ClassName := #[]
  /-- How many of these have been taken already. -/
  taken : Nat := 0

namespace Frontier

/-- Meets a class that is no array. -/
def meet (f : Frontier) (name : ClassName) : Frontier :=
  if f.external.contains name || f.internal.contains name then f
  else if f.probe.contains (.ofName name) then
    { f with internal := f.internal.insert name, order := f.order.push name }
  else { f with external := f.external.insert name }

theorem mem_internal_meet {f : Frontier} {name other : ClassName} :
    other ∈ (f.meet name).internal ↔
      other ∈ f.internal ∨ other = name ∧ f.probe.contains (.ofName name) ∧ name ∉ f.external := by
  unfold meet
  split
  · next h =>
    rw [Bool.or_eq_true, Std.TreeSet.contains_iff_mem, Std.TreeSet.contains_iff_mem] at h
    grind
  · next h =>
    rw [Bool.or_eq_true, Std.TreeSet.contains_iff_mem, Std.TreeSet.contains_iff_mem] at h
    split
    · next hp => simp [Std.TreeSet.mem_insert, hp]; grind
    · next hp => simp [hp]

theorem mem_external_meet {f : Frontier} {name other : ClassName} :
    other ∈ (f.meet name).external ↔
      other ∈ f.external ∨ other = name ∧ ¬ f.probe.contains (.ofName name) ∧ name ∉ f.internal := by
  unfold meet
  split
  · next h =>
    rw [Bool.or_eq_true, Std.TreeSet.contains_iff_mem, Std.TreeSet.contains_iff_mem] at h
    grind
  · next h =>
    rw [Bool.or_eq_true, Std.TreeSet.contains_iff_mem, Std.TreeSet.contains_iff_mem] at h
    split
    · next hp => simp [hp]
    · next hp => simp [Std.TreeSet.mem_insert, hp]; grind

/-- Meets the class at the bottom of an id; a primitive array has none. -/
def submit (id : ClassId) (f : Frontier) : Frontier :=
  match id.className? with
  | none => f
  | some name => f.meet name

instance : ClassSink Frontier where
  submit := submit

def ofRoots (probe : Probe) (roots : List ClassId) : Frontier :=
  roots.foldl (fun f id => f.submit id) { probe }

/-- The internal classes not yet taken, in order. -/
def outstanding (f : Frontier) : List ClassName :=
  f.order.toList.drop f.taken

def outstandingCount (f : Frontier) : Nat :=
  f.order.size - f.taken

def hasNext (f : Frontier) : Bool :=
  f.taken < f.order.size

def next (f : Frontier) : Option ClassName × Frontier :=
  match f.order[f.taken]? with
  | none => (none, f)
  | some name => (some name, { f with taken := f.taken + 1 })

/-- The classes whose source files hold the internal classes. -/
def sources (f : Frontier) : NameSet :=
  .ofList (f.internal.toList.map ClassName.topLevel)

/-- The packages of a set of classes, less the unnamed one. -/
def packagesOf (names : NameSet) : Std.TreeSet String :=
  .ofList (names.toList.filterMap ClassName.package?)

/-- The packages that the tree uses from elsewhere. -/
def imports (f : Frontier) : Std.TreeSet String :=
  packagesOf f.external

/-- The packages that the tree provides. -/
def exports (f : Frontier) : Std.TreeSet String :=
  packagesOf f.internal

end Frontier

end ClassAtlas
