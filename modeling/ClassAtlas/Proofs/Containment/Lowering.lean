import Mathlib.Data.Option.Basic
import ClassAtlas.Containment

/-!
# Lowering visibility

Flags are lowered when nothing but their access bits changes and the level that they encode
does not rise. A table of inner classes with lowered flags has the same links, so a class is
found inside the same classes as before; it is synthetic or anonymous if it was, and at most
as visible.
-/

namespace ClassAtlas

/-! ### Levels and flags -/

namespace Visibility

theorem isVisible_iff {v : Visibility} : v.isVisible = true ↔ 1 ≤ v.rank := by
  cases v <;> decide

theorem isPublicSurface_iff {v : Visibility} : v.isPublicSurface = true ↔ 2 ≤ v.rank := by
  cases v <;> decide

theorem le_iff_rank_le {a b : Visibility} : a ≤ b ↔ a.rank ≤ b.rank :=
  Iff.rfl

theorem meet_le_meet {a b c d : Visibility} (hac : a ≤ c) (hbd : b ≤ d) : a.meet b ≤ c.meet d := by
  rw [le_iff_rank_le] at *
  rw [rank_meet, rank_meet]
  omega

theorem isVisible_mono {a b : Visibility} (h : a ≤ b) (ha : a.isVisible = true) :
    b.isVisible = true := by
  rw [isVisible_iff] at *
  exact Nat.le_trans ha h

theorem isPublicSurface_mono {a b : Visibility} (h : a ≤ b) (ha : a.isPublicSurface = true) :
    b.isPublicSurface = true := by
  rw [isPublicSurface_iff] at *
  exact Nat.le_trans ha h

end Visibility

namespace AccessFlags

/-- The bits that encode the level. -/
def accessBits : AccessFlags :=
  publicAccess ||| privateAccess ||| protectedAccess

/-- Only access bits change, and the level does not rise. -/
structure LowersTo (flags lowered : AccessFlags) : Prop where
  others_eq : lowered &&& ~~~accessBits = flags &&& ~~~accessBits
  level_le : Visibility.ofFlags lowered ≤ .ofFlags flags

variable {flags lowered : AccessFlags}

theorem LowersTo.refl (flags : AccessFlags) : flags.LowersTo flags where
  others_eq := rfl
  level_le := Nat.le_refl _

theorem LowersTo.has_eq (h : flags.LowersTo lowered) {flag : AccessFlags}
    (hflag : ~~~accessBits &&& flag = flag) : lowered.has flag = flags.has flag := by
  have hcut (f : AccessFlags) : f &&& flag = f &&& ~~~accessBits &&& flag := by
    rw [UInt16.and_assoc, hflag]
  rw [has, has, hcut lowered, hcut flags, h.others_eq]

theorem LowersTo.synthetic_eq (h : flags.LowersTo lowered) :
    lowered.has .synthetic = flags.has .synthetic :=
  h.has_eq (by decide)

end AccessFlags

/-! ### Chains of containers -/

structure InnerClass.LowersTo (link lowered : InnerClass) : Prop where
  inner_eq : lowered.inner = link.inner
  outer_eq : lowered.outer = link.outer
  flags : link.flags.LowersTo lowered.flags

/-- The same classes have a link, and each link is lowered. -/
def InnerTable.LowersTo (table lowered : InnerTable) : Prop :=
  ∀ text : String, Option.Rel InnerClass.LowersTo table[text]? lowered[text]?

theorem InnerTable.lowersTo_empty : InnerTable.LowersTo {} {} := by
  intro text
  rw [Std.TreeMap.getElem?_emptyc]
  exact .none

theorem InnerTable.LowersTo.insert {table lowered : InnerTable} (h : table.LowersTo lowered)
    {link other : InnerClass} (hlink : link.LowersTo other) (key : String) :
    InnerTable.LowersTo (table.insert key link) (lowered.insert key other) := by
  intro text
  rw [Std.TreeMap.getElem?_insert, Std.TreeMap.getElem?_insert]
  split
  · exact .some hlink
  · exact h text

namespace Concealment

structure LowersTo (c lowered : Concealment) : Prop where
  visibility_le : lowered.visibility ≤ c.visibility
  synthetic_eq : lowered.synthetic = c.synthetic
  anonymous_eq : lowered.anonymous = c.anonymous

variable {table lowered : InnerTable}

theorem LowersTo.own {flags others : AccessFlags} (h : flags.LowersTo others) (id : ClassId) :
    (own id flags).LowersTo (own id others) where
  visibility_le := h.level_le
  synthetic_eq := h.synthetic_eq
  anonymous_eq := rfl

/-- A step: taking in a lowered link. -/
theorem LowersTo.narrowed {c d : Concealment} (h : c.LowersTo d) {link other : InnerClass}
    (hlink : link.LowersTo other) : (c.narrowed link).LowersTo (d.narrowed other) where
  visibility_le := Visibility.meet_le_meet h.visibility_le hlink.flags.level_le
  synthetic_eq := by rw [Concealment.narrowed, Concealment.narrowed, h.synthetic_eq,
    hlink.flags.synthetic_eq]
  anonymous_eq := by rw [Concealment.narrowed, Concealment.narrowed, h.anonymous_eq,
    hlink.outer_eq]

/-- A run: both walks come through the same classes. -/
theorem LowersTo.follow (ht : table.LowersTo lowered) (links : Nat) (met : Std.TreeSet String)
    (current : ClassId) {c d : Concealment} (h : c.LowersTo d) :
    (follow table links met current c).LowersTo (follow lowered links met current d) := by
  induction links generalizing met current c d with
  | zero => exact h
  | succ links ih =>
    have hlinks := ht current.text
    unfold Concealment.follow
    generalize table[current.text]? = found at hlinks ⊢
    generalize lowered[current.text]? = other at hlinks ⊢
    cases hlinks with
    | none => exact h
    | some hlink =>
      have hnarrowed := h.narrowed hlink
      dsimp only
      rw [hlink.outer_eq]
      split
      · exact hnarrowed
      · exact ih _ _ hnarrowed

theorem LowersTo.within (ht : table.LowersTo lowered) {flags others : AccessFlags}
    (hflags : flags.LowersTo others) (id : ClassId) :
    (within table id flags).LowersTo (within lowered id others) :=
  .follow ht maxLinks _ id (.own hflags id)

end Concealment

end ClassAtlas
