import Mathlib.Data.Option.Basic
import ClassAtlas.Proofs.Containment.Lowering

/-!
# Chains of containers

A class has a link to the class around it, which may have a link to the class around that one,
and so on. The chain of a class goes on until a class has no link, or a link leads back to a
class that is on the chain already, and it has 1024 links at most. What a class is inside all
the classes around it is gathered from exactly the links of its chain.
-/

namespace ClassAtlas

namespace Visibility

theorem meet_le_left (a b : Visibility) : a.meet b ≤ a := by
  rw [le_iff_rank_le, rank_meet]
  exact Nat.min_le_left _ _

theorem meet_le_right (a b : Visibility) : a.meet b ≤ b := by
  rw [le_iff_rank_le, rank_meet]
  exact Nat.min_le_right _ _

theorem meet_eq_or (a b : Visibility) : a.meet b = a ∨ a.meet b = b := by
  unfold meet
  split
  · exact .inl rfl
  · exact .inr rfl

theorem le_trans {a b c : Visibility} (hab : a ≤ b) (hbc : b ≤ c) : a ≤ c :=
  Nat.le_trans hab hbc

theorem le_antisymm {a b : Visibility} (hab : a ≤ b) (hba : b ≤ a) : a = b := by
  have hrank : a.rank = b.rank := Nat.le_antisymm hab hba
  cases a <;> cases b <;> first | rfl | cases hrank

end Visibility

namespace InnerClass

/-- The entry of a class in a row of entries: the last one of which it is the inner class. -/
def entryOf (entries : List InnerClass) (id : ClassId) : Option InnerClass :=
  (entries.filter fun entry => entry.inner == id).getLast?

/-- The links from a class outwards: its own entry, and then the entry of the outer class of the
link before. -/
def linkAt (entry : ClassId → Option InnerClass) (id : ClassId) : Nat → Option InnerClass
  | 0 => entry id
  | i + 1 => (linkAt entry id i).bind fun link => entry link.outer

/-- Whether a class is met before the link at `i` is: at the start, or as the outer class of an
earlier link. -/
def IsMet (entry : ClassId → Option InnerClass) (start : ClassId → Prop) (id : ClassId) (i : Nat)
    (other : ClassId) : Prop :=
  start other ∨ ∃ j < i, ∃ link, linkAt entry id j = some link ∧ link.outer == other

/-- Whether a chain of so many links at most has this one at `i`: no link before it leads to a
class that was met. -/
structure IsFollowed (entry : ClassId → Option InnerClass) (start : ClassId → Prop) (links : Nat)
    (id : ClassId) (i : Nat) (link : InnerClass) : Prop where
  lt : i < links
  linkAt_eq : linkAt entry id i = some link
  unmet : ∀ j < i, ∀ earlier, linkAt entry id j = some earlier →
    ¬ IsMet entry start id j earlier.outer

/-- Whether a link is on the chain of a class, which has met itself and nothing else. -/
def OnChain (entry : ClassId → Option InnerClass) (id : ClassId) (link : InnerClass) : Prop :=
  ∃ i, IsFollowed entry (fun other => id == other) 1024 id i link

variable {entry : ClassId → Option InnerClass} {start : ClassId → Prop} {links : Nat}
  {id : ClassId} {link : InnerClass}

theorem linkAt_of_none (h : entry id = none) (i : Nat) : linkAt entry id i = none := by
  induction i with
  | zero => exact h
  | succ i ih => rw [linkAt, ih, Option.bind_none]

theorem linkAt_succ_of_some (h : entry id = some link) (i : Nat) :
    linkAt entry id (i + 1) = linkAt entry link.outer i := by
  induction i with
  | zero => simp [linkAt, h]
  | succ i ih => rw [linkAt, ih, linkAt]

theorem isMet_succ_of_some (h : entry id = some link) {i : Nat} {other : ClassId} :
    IsMet entry start id (i + 1) other ↔
      IsMet entry (fun other => start other ∨ link.outer == other) link.outer i other := by
  constructor
  · rintro (hstart | ⟨j, hj, earlier, hearlier, houter⟩)
    · exact .inl (.inl hstart)
    · cases j with
      | zero =>
        obtain rfl : link = earlier := Option.some.inj (h.symm.trans hearlier)
        exact .inl (.inr houter)
      | succ j =>
        rw [linkAt_succ_of_some h] at hearlier
        exact .inr ⟨j, Nat.lt_of_succ_lt_succ hj, earlier, hearlier, houter⟩
  · rintro ((hstart | houter) | ⟨j, hj, earlier, hearlier, houter⟩)
    · exact .inl hstart
    · exact .inr ⟨0, Nat.succ_pos i, link, h, houter⟩
    · rw [← linkAt_succ_of_some h] at hearlier
      exact .inr ⟨j + 1, Nat.succ_lt_succ hj, earlier, hearlier, houter⟩

theorem isFollowed_zero (h : entry id = some link) {other : InnerClass} :
    IsFollowed entry start (links + 1) id 0 other ↔ other = link := by
  constructor
  · intro hother
    exact Option.some.inj (hother.linkAt_eq.symm.trans h)
  · rintro rfl
    exact ⟨Nat.succ_pos links, h, fun j hj => absurd hj (Nat.not_lt_zero j)⟩

theorem isFollowed_succ (h : entry id = some link) {i : Nat} {other : InnerClass} :
    IsFollowed entry start (links + 1) id (i + 1) other ↔ ¬ start link.outer ∧
      IsFollowed entry (fun other => start other ∨ link.outer == other) links link.outer i
        other := by
  constructor
  · intro hother
    refine ⟨fun hstart => hother.unmet 0 (Nat.succ_pos i) link h (.inl hstart), ?_⟩
    refine ⟨Nat.lt_of_succ_lt_succ hother.lt, linkAt_succ_of_some h i ▸ hother.linkAt_eq, ?_⟩
    intro j hj earlier hearlier hmet
    rw [← linkAt_succ_of_some h] at hearlier
    exact hother.unmet (j + 1) (Nat.succ_lt_succ hj) earlier hearlier
      ((isMet_succ_of_some h).2 hmet)
  · rintro ⟨hstart, hother⟩
    refine ⟨Nat.succ_lt_succ hother.lt, linkAt_succ_of_some h i ▸ hother.linkAt_eq, ?_⟩
    intro j hj earlier hearlier hmet
    cases j with
    | zero =>
      obtain rfl : link = earlier := Option.some.inj (h.symm.trans hearlier)
      rcases hmet with hmet | ⟨k, hk, -⟩
      · exact hstart hmet
      · exact Nat.not_lt_zero k hk
    | succ j =>
      rw [linkAt_succ_of_some h] at hearlier
      exact hother.unmet j (Nat.lt_of_succ_lt_succ hj) earlier hearlier
        ((isMet_succ_of_some h).1 hmet)

theorem not_isFollowed_zero_links {i : Nat} : ¬ IsFollowed entry start 0 id i link :=
  fun h => Nat.not_lt_zero i h.lt

theorem not_isFollowed_of_none (h : entry id = none) {i : Nat} :
    ¬ IsFollowed entry start links id i link := by
  intro hlink
  have hlinkAt := hlink.linkAt_eq
  rw [linkAt_of_none h] at hlinkAt
  contradiction

/-- A chain is its first link, and behind it the chain of the class that this leads to. -/
theorem exists_isFollowed_iff (h : entry id = some link) {other : InnerClass} :
    (∃ i, IsFollowed entry start (links + 1) id i other) ↔ other = link ∨ ¬ start link.outer ∧
      ∃ i, IsFollowed entry (fun other => start other ∨ link.outer == other) links link.outer i
        other := by
  constructor
  · rintro ⟨i, hother⟩
    cases i with
    | zero => exact .inl ((isFollowed_zero h).1 hother)
    | succ i =>
      obtain ⟨hstart, hother⟩ := (isFollowed_succ h).1 hother
      exact .inr ⟨hstart, i, hother⟩
  · rintro (hother | ⟨hstart, i, hother⟩)
    · exact ⟨0, (isFollowed_zero h).2 hother⟩
    · exact ⟨i + 1, (isFollowed_succ h).2 ⟨hstart, hother⟩⟩

end InnerClass

namespace Concealment

open InnerClass

/-- What comes of a concealment when some links are taken in, in whatever order. -/
structure Gathers (start result : Concealment) (links : InnerClass → Prop) : Prop where
  visibility_le : result.visibility ≤ start.visibility
  visibility_le_link : ∀ link, links link → result.visibility ≤ link.visibility
  visibility_eq : result.visibility = start.visibility ∨
    ∃ link, links link ∧ result.visibility = link.visibility
  synthetic_iff : result.synthetic = true ↔
    start.synthetic = true ∨ ∃ link, links link ∧ link.flags.has .synthetic = true
  anonymous_iff : result.anonymous = true ↔
    start.anonymous = true ∨ ∃ link, links link ∧ link.outer.isAnonymous = true

theorem Gathers.of_none (c : Concealment) {links : InnerClass → Prop}
    (h : ∀ link, ¬ links link) : c.Gathers c links where
  visibility_le := Nat.le_refl _
  visibility_le_link link hlink := absurd hlink (h link)
  visibility_eq := .inl rfl
  synthetic_iff := by simp [h]
  anonymous_iff := by simp [h]

/-- A step: one link is taken in, and then the others. -/
theorem Gathers.of_narrowed {start result : Concealment} {link : InnerClass}
    {links others : InnerClass → Prop} (h : (start.narrowed link).Gathers result others)
    (hlinks : ∀ other, links other ↔ other = link ∨ others other) :
    start.Gathers result links where
  visibility_le := Visibility.le_trans h.visibility_le (Visibility.meet_le_left _ _)
  visibility_le_link other hother := by
    rcases (hlinks other).1 hother with rfl | hother
    · exact Visibility.le_trans h.visibility_le (Visibility.meet_le_right _ _)
    · exact h.visibility_le_link other hother
  visibility_eq := by
    rcases h.visibility_eq with heq | ⟨other, hother, heq⟩
    · rw [heq]
      rcases Visibility.meet_eq_or start.visibility link.visibility with hmeet | hmeet
      · exact .inl hmeet
      · exact .inr ⟨link, (hlinks link).2 (.inl rfl), hmeet⟩
    · exact .inr ⟨other, (hlinks other).2 (.inr hother), heq⟩
  synthetic_iff := by
    simp [h.synthetic_iff, narrowed, hlinks, or_assoc]
  anonymous_iff := by
    simp [h.anonymous_iff, narrowed, hlinks, or_assoc]

/-- What is gathered is determined by the links. -/
theorem Gathers.unique {start result other : Concealment} {links : InnerClass → Prop}
    (h : start.Gathers result links) (hother : start.Gathers other links) : result = other := by
  have hle {a b : Concealment} (ha : start.Gathers a links) (hb : start.Gathers b links) :
      a.visibility ≤ b.visibility := by
    rcases hb.visibility_eq with heq | ⟨link, hlink, heq⟩
    · exact heq ▸ ha.visibility_le
    · exact heq ▸ ha.visibility_le_link link hlink
  have hvisibility := Visibility.le_antisymm (hle h hother) (hle hother h)
  have hsynthetic : result.synthetic = other.synthetic :=
    Bool.eq_iff_iff.2 (h.synthetic_iff.trans hother.synthetic_iff.symm)
  have hanonymous : result.anonymous = other.anonymous :=
    Bool.eq_iff_iff.2 (h.anonymous_iff.trans hother.anonymous_iff.symm)
  cases result
  cases other
  simp_all

theorem mem_insert_text_iff {met : Std.TreeSet String} {start : ClassId → Prop}
    (hmet : ∀ id : ClassId, id.text ∈ met ↔ start id) (outer id : ClassId) :
    id.text ∈ met.insert outer.text ↔ start id ∨ outer == id := by
  rw [Std.TreeSet.mem_insert, hmet, Std.compare_eq_iff_eq, or_comm, ClassId.beq_iff_text_eq]

variable {table : InnerTable} {entry : ClassId → Option InnerClass}

/-- A run: the walk takes in exactly the links of the chain, from the classes met so far on. -/
theorem gathers_follow (htable : ∀ id : ClassId, table[id.text]? = entry id) (links : Nat)
    {met : Std.TreeSet String} {start : ClassId → Prop}
    (hmet : ∀ id : ClassId, id.text ∈ met ↔ start id) (current : ClassId) (c : Concealment) :
    c.Gathers (follow table links met current c)
      fun link => ∃ i, IsFollowed entry start links current i link := by
  induction links generalizing met start current c with
  | zero =>
    refine Gathers.of_none c ?_
    rintro link ⟨i, hlink⟩
    exact not_isFollowed_zero_links hlink
  | succ links ih =>
    unfold follow
    rw [htable]
    cases hentry : entry current with
    | none =>
      refine Gathers.of_none c ?_
      rintro link ⟨i, hlink⟩
      exact not_isFollowed_of_none hentry hlink
    | some link =>
      dsimp only
      split
      · next hcontains =>
        have hstart : start link.outer := (hmet _).1 (Std.TreeSet.contains_iff_mem.1 hcontains)
        have hlast : (c.narrowed link).Gathers (c.narrowed link) fun _ => False :=
          Gathers.of_none _ fun _ h => h
        exact hlast.of_narrowed fun other => by simp [exists_isFollowed_iff hentry, hstart]
      · next hcontains =>
        have hstart : ¬ start link.outer := by
          intro h
          exact hcontains (Std.TreeSet.contains_iff_mem.2 ((hmet _).2 h))
        have hothers := ih (mem_insert_text_iff hmet link.outer) link.outer (c.narrowed link)
        exact hothers.of_narrowed fun other => by simp [exists_isFollowed_iff hentry, hstart]

/-- What a class is inside all the classes around it comes from the links of its chain. -/
theorem gathers_within (htable : ∀ id : ClassId, table[id.text]? = entry id) (id : ClassId)
    (flags : AccessFlags) :
    (own id flags).Gathers (within table id flags) (OnChain entry id) := by
  have hmet (other : ClassId) :
      other.text ∈ Std.TreeSet.ofList [id.text] ↔ id == other := by
    rw [Std.TreeSet.mem_ofList, List.contains_cons, List.contains_nil, Bool.or_false,
      ClassId.beq_iff_text_eq, beq_iff_eq, eq_comm]
  exact gathers_follow htable maxLinks hmet id (own id flags)

end Concealment

end ClassAtlas
