import ClassAtlas.ClassFile

/-!
# What a profile holds

The profile of a row of class files holds the lines that these show and no others: all of
them on the package side, those of the public surface on the public side. So the files may
come in any order and more than once. What a class shows is its own line and, member by
member, the lines of those that are not hidden, so the order of the members does not matter
either.
-/

namespace ClassAtlas

namespace Profile

variable {p q : Profile} {files others : List ClassFile}

/-- The lines of a profile are those that the class files show. -/
structure Holds (p : Profile) (files : List ClassFile) : Prop where
  mem_public (line : String) : line ∈ p.publicLines ↔
    ∃ c ∈ files, ∃ level, (line, level) ∈ c.shownLines ∧ level.isPublicSurface
  mem_package (line : String) : line ∈ p.packageLines ↔
    ∃ c ∈ files, ∃ level, (line, level) ∈ c.shownLines

theorem holds_empty : Holds {} [] where
  mem_public := by simp
  mem_package := by simp

theorem mem_foldl_add (shown : List (String × Visibility)) (p : Profile) (line : String) :
    (line ∈ (shown.foldl (fun p (line, level) => p.add line level.isPublicSurface) p).publicLines ↔
      line ∈ p.publicLines ∨ ∃ level, (line, level) ∈ shown ∧ level.isPublicSurface) ∧
    (line ∈ (shown.foldl (fun p (line, level) => p.add line level.isPublicSurface) p).packageLines ↔
      line ∈ p.packageLines ∨ ∃ level, (line, level) ∈ shown) := by
  induction shown generalizing p with
  | nil => simp
  | cons first rest ih =>
    obtain ⟨text, level⟩ := first
    have := ih (p.add text level.isPublicSurface)
    simp only [List.foldl_cons, this, mem_publicLines_add, mem_packageLines_add,
      List.mem_cons, Prod.mk.injEq]
    grind

theorem Holds.addTo (h : p.Holds files) (c : ClassFile) : (c.addTo p).Holds (files ++ [c]) where
  mem_public line := by
    rw [ClassFile.addTo, (mem_foldl_add c.shownLines p line).1, h.mem_public]
    simp only [List.mem_append, List.mem_singleton]
    grind
  mem_package line := by
    rw [ClassFile.addTo, (mem_foldl_add c.shownLines p line).2, h.mem_package]
    simp only [List.mem_append, List.mem_singleton]
    grind

theorem Holds.toList_eq (hp : p.Holds files) (hq : q.Holds others)
    (h : ∀ c, c ∈ files ↔ c ∈ others) :
    p.publicLines.toList = q.publicLines.toList ∧
      p.packageLines.toList = q.packageLines.toList := by
  constructor
  · apply Std.TreeSet.Equiv.toList_eq
    apply Std.TreeSet.Equiv.of_forall_mem_iff
    intro line
    simp only [hp.mem_public, hq.mem_public, h]
  · apply Std.TreeSet.Equiv.toList_eq
    apply Std.TreeSet.Equiv.of_forall_mem_iff
    intro line
    simp only [hp.mem_package, hq.mem_package, h]

/-- Adding to a profile what is shown in any order adds the same lines. -/
theorem toList_addTo_of_perm {c other : ClassFile} (h : other.shownLines.Perm c.shownLines)
    (p : Profile) :
    (other.addTo p).publicLines.toList = (c.addTo p).publicLines.toList ∧
      (other.addTo p).packageLines.toList = (c.addTo p).packageLines.toList := by
  constructor
  · apply Std.TreeSet.Equiv.toList_eq
    apply Std.TreeSet.Equiv.of_forall_mem_iff
    intro line
    rw [ClassFile.addTo, ClassFile.addTo, (mem_foldl_add _ p line).1, (mem_foldl_add _ p line).1]
    simp only [h.mem_iff]
  · apply Std.TreeSet.Equiv.toList_eq
    apply Std.TreeSet.Equiv.of_forall_mem_iff
    intro line
    rw [ClassFile.addTo, ClassFile.addTo, (mem_foldl_add _ p line).2, (mem_foldl_add _ p line).2]
    simp only [h.mem_iff]

end Profile

/-! ### What a class shows -/

/-- A member that no profile shows, whatever its class shows of itself. -/
def Member.IsHidden (kind : MemberKind) (m : Member) : Prop :=
  m.visibility = .privateAccess ∨ m.isSynthetic = true ∨
    kind = .method ∧ m.name = ClassFile.initializerName

/-- Whether a member is listed with its class at all. -/
def Member.isListed (kind : MemberKind) (m : Member) : Bool :=
  !m.isSynthetic && !(kind = .method && m.name == ClassFile.initializerName)

/-- The line of a member and its level inside a class of the given level, if it is shown. -/
def Member.shown? (kind : MemberKind) (outer : Visibility) (m : Member) :
    Option (String × Visibility) :=
  if m.isListed kind && (outer.meet m.visibility).isVisible then
    some (m.line, outer.meet m.visibility)
  else none

theorem Visibility.meet_privateAccess (v : Visibility) :
    v.meet .privateAccess = .privateAccess := by
  cases v <;> rfl

theorem Member.IsHidden.shown?_eq_none {kind : MemberKind} {m : Member} (h : m.IsHidden kind)
    (outer : Visibility) : m.shown? kind outer = none := by
  unfold shown?
  rcases h with hprivate | hsynthetic | ⟨rfl, hname⟩
  · simp [hprivate, Visibility.meet_privateAccess, Visibility.isVisible]
  · simp [isListed, hsynthetic]
  · simp [isListed, hname]

namespace ClassFile

def membersOf (c : ClassFile) : MemberKind → List Member
  | .field => c.fields
  | .method => c.methods

def shownMembers (c : ClassFile) (kind : MemberKind) : List (String × Visibility) :=
  (c.membersOf kind).filterMap (Member.shown? kind c.concealment.visibility)

theorem filter_map_filter {α β : Type} (p : α → Bool) (f : α → β) (q : β → Bool) (l : List α) :
    ((l.filter p).map f).filter q =
      l.filterMap fun a => if p a && q (f a) then some (f a) else none := by
  induction l with
  | nil => rfl
  | cons a l ih => by_cases hp : p a <;> by_cases hq : q (f a) <;> simp [hp, hq, ih]

theorem shownLines_eq (c : ClassFile) :
    c.shownLines = if c.concealment.anonymous || c.concealment.synthetic then []
      else ([(c.line, c.concealment.visibility)].filter fun shown => shown.2.isVisible) ++
        (c.shownMembers .field ++ c.shownMembers .method) := by
  have hfields : c.fields.filter (fun m => !m.isSynthetic) =
      c.fields.filter (Member.isListed .field) :=
    List.filter_congr fun m _ => by simp [Member.isListed]
  have hmethods : (c.methods.filter fun m => m.name != initializerName).filter
      (fun m => !m.isSynthetic) = c.methods.filter (Member.isListed .method) := by
    rw [List.filter_filter]
    exact List.filter_congr fun m _ => by simp [Member.isListed, bne]
  unfold shownLines
  dsimp only
  split
  · rfl
  · rw [List.filter_append, hfields, hmethods, List.map_append, ← List.singleton_append,
      List.filter_append, List.filter_append, filter_map_filter, filter_map_filter]
    rfl

theorem shownLines_perm {c other : ClassFile} (hline : other.line = c.line)
    (hconcealment : other.concealment = c.concealment)
    (hmembers : ∀ kind, (other.shownMembers kind).Perm (c.shownMembers kind)) :
    other.shownLines.Perm c.shownLines := by
  rw [shownLines_eq, shownLines_eq, hline, hconcealment]
  split
  · rfl
  · exact ((hmembers .field).append (hmembers .method)).append_left _

end ClassFile

end ClassAtlas
