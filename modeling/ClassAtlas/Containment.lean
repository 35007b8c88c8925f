import Std.Data.TreeMap
import Std.Data.TreeSet
import ClassAtlas.Access
import ClassAtlas.ClassId

/-!
# Containment

A class file lists classes nested in others, each with the class around it and with
flags of its own. What a class shows to others is narrowed by every class around it:
visibility falls to the least of all levels, and a synthetic or anonymous class around it
makes the class synthetic or anonymous, too. `Concealment.within` follows the table from
a class outwards. The table may be cyclic, so the walk ends when it comes to a class for
the second time, and at the latest after `maxLinks` links.
-/

namespace ClassAtlas

structure InnerClass where
  inner : ClassId
  outer : ClassId
  flags : AccessFlags

def InnerClass.visibility (entry : InnerClass) : Visibility :=
  .ofFlags entry.flags

/-- The entries under what their inner classes are written as. -/
abbrev InnerTable := Std.TreeMap String InnerClass

/-- What decides whether a class and its members are shown. -/
structure Concealment where
  visibility : Visibility
  synthetic : Bool
  anonymous : Bool
deriving DecidableEq

namespace Concealment

def own (id : ClassId) (flags : AccessFlags) : Concealment where
  visibility := .ofFlags flags
  synthetic := flags.has .synthetic
  anonymous := id.isAnonymous

/-- Takes in one link of the chain outwards. -/
def narrowed (c : Concealment) (link : InnerClass) : Concealment where
  visibility := c.visibility.meet link.visibility
  synthetic := c.synthetic || link.flags.has .synthetic
  anonymous := c.anonymous || link.outer.isAnonymous

def maxLinks : Nat := 1024

/-- Follows so many links outwards from a class, past classes already `met`. -/
def follow (table : InnerTable) :
    Nat → Std.TreeSet String → ClassId → Concealment → Concealment
  | 0, _, _, c => c
  | links + 1, met, current, c =>
    match table[current.text]? with
    | none => c
    | some link =>
      let c := c.narrowed link
      if met.contains link.outer.text then c
      else follow table links (met.insert link.outer.text) link.outer c

/-- What a class with these flags is inside all the classes around it. -/
def within (table : InnerTable) (id : ClassId) (flags : AccessFlags) : Concealment :=
  follow table maxLinks (.ofList [id.text]) id (own id flags)

end Concealment

end ClassAtlas
