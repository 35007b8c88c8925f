import Mathlib.Data.List.Forall2
import ClassAtlas.Proofs.ClassFile.Layout
import ClassAtlas.Proofs.ClassFile.Lowering
import ClassAtlas.Proofs.Containment.Chain

/-!
# What the classes around a class conceal

What a loaded class file says of its class comes from the chain of links in its inner-class
tables, whatever these hold. Entries of different inner classes may change places, since the
chain asks for the entry of one class at a time.
-/

namespace ClassAtlas

/-- Takes in one link after the other, where the last one of an inner class stays. -/
def InnerTable.withLinks (table : InnerTable) (links : List InnerClass) : InnerTable :=
  links.foldl (fun table link => table.insert link.inner.text link) table

theorem InnerTable.withLinks_append (table : InnerTable) (links others : List InnerClass) :
    table.withLinks (links ++ others) = (table.withLinks links).withLinks others :=
  List.foldl_append

theorem InnerTable.getElem?_withLinks (links : List InnerClass) (id : ClassId) :
    (withLinks {} links)[id.text]? = InnerClass.entryOf links id := by
  rw [withLinks, ClassAttribute.getElem?_foldl_insert, Std.TreeMap.getElem?_emptyc, Option.or_none,
    InnerClass.entryOf]
  rfl

namespace InnerFrame

def link (pool : ConstantPool) (e : InnerFrame) : Except Error (Option InnerClass) := do
  if e.inner = 0 ∨ e.outer = 0 then return none
  let inner ← pool.classAt e.inner
  let outer ← pool.classAt e.outer
  return some { inner, outer, flags := e.flags }

def IsResolvable (pool : ConstantPool) (e : InnerFrame) : Prop :=
  ∃ link, e.link pool = .ok link

def link? (pool : ConstantPool) (e : InnerFrame) : Option InnerClass :=
  (e.link pool).toOption.join

def links (pool : ConstantPool) (entries : List InnerFrame) : List InnerClass :=
  entries.filterMap (link? pool)

variable {pool : ConstantPool}

theorem links_cons (e : InnerFrame) (entries : List InnerFrame) :
    links pool (e :: entries) = (e.link? pool).toList ++ links pool entries := by
  rw [links, List.filterMap_cons, links]
  cases e.link? pool <;> rfl

theorem links_append (entries others : List InnerFrame) :
    links pool (entries ++ others) = links pool entries ++ links pool others :=
  List.filterMap_append

theorem classAt_of_link? {e : InnerFrame} {link : InnerClass} (h : e.link? pool = some link) :
    pool.classAt e.inner = .ok link.inner := by
  unfold link? InnerFrame.link at h
  split at h
  · cases h
  · cases hinner : pool.classAt e.inner with
    | error fault => rw [hinner] at h; cases h
    | ok inner =>
      cases houter : pool.classAt e.outer with
      | error fault => rw [hinner, houter] at h; cases h
      | ok outer => rw [hinner, houter] at h; cases h; rfl

theorem addTo_eq_ok_iff {e : InnerFrame} {table next : InnerTable} :
    e.addTo pool table = .ok next ↔ e.IsResolvable pool ∧
      next = table.withLinks (e.link? pool).toList := by
  have haddTo : e.addTo pool table = do
      return table.withLinks (← e.link pool).toList := by
    unfold addTo link
    split
    · rfl
    · simp [InnerTable.withLinks]
  rw [haddTo, bind_eq_ok_iff]
  constructor
  · rintro ⟨link, hlink, hnext⟩
    refine ⟨⟨link, hlink⟩, ?_⟩
    rw [link?, hlink]
    exact (Except.ok.inj hnext).symm
  · rintro ⟨⟨link, hlink⟩, rfl⟩
    refine ⟨link, hlink, ?_⟩
    rw [link?, hlink]
    rfl

theorem foldlM_addTo_eq_ok_iff {entries : List InnerFrame} {table next : InnerTable} :
    entries.foldlM (addTo pool) table = .ok next ↔ (∀ e ∈ entries, e.IsResolvable pool) ∧
      next = table.withLinks (links pool entries) := by
  induction entries generalizing table with
  | nil => simp [links, InnerTable.withLinks, pure, Except.pure, eq_comm]
  | cons e entries ih =>
    rw [List.foldlM_cons, bind_eq_ok_iff, links_cons, table.withLinks_append]
    simp [addTo_eq_ok_iff, ih, and_assoc]

/-- Whether two entries are of different inner classes. -/
def IsApart (pool : ConstantPool) (e f : InnerFrame) : Prop :=
  ∀ a b, pool.classAt e.inner = .ok a → pool.classAt f.inner = .ok b → ¬ a == b

/-- Entries of different inner classes change places, next to each other and any number of
times. -/
inductive Reorders (pool : ConstantPool) : List InnerFrame → List InnerFrame → Prop
  | nil : Reorders pool [] []
  | cons (e : InnerFrame) {entries others : List InnerFrame} (h : Reorders pool entries others) :
      Reorders pool (e :: entries) (e :: others)
  | swap (e f : InnerFrame) (h : IsApart pool e f) (entries : List InnerFrame) :
      Reorders pool (e :: f :: entries) (f :: e :: entries)
  | trans {entries others more : List InnerFrame} (h : Reorders pool entries others)
      (hmore : Reorders pool others more) : Reorders pool entries more

theorem IsApart.symm {e f : InnerFrame} (h : IsApart pool e f) : IsApart pool f e :=
  fun a b ha hb hab => h b a hb ha (ClassId.beq_iff_text_eq.2 (ClassId.beq_iff_text_eq.1 hab).symm)

namespace Reorders

variable {entries others : List InnerFrame}

/-- A table in which every inner class has one entry may be permuted in any way. -/
theorem of_perm (h : entries.Perm others) (hapart : entries.Pairwise (IsApart pool)) :
    Reorders pool entries others := by
  induction h with
  | nil => exact .nil
  | cons e _ ih => exact .cons e (ih (List.pairwise_cons.1 hapart).2)
  | swap e f entries =>
    exact .swap f e ((List.pairwise_cons.1 hapart).1 e List.mem_cons_self) entries
  | trans h _ ih ihmore =>
    exact .trans (ih hapart) (ihmore (hapart.perm h fun h => h.symm))

theorem perm (h : Reorders pool entries others) : entries.Perm others := by
  induction h with
  | nil => exact .nil
  | cons e _ ih => exact ih.cons e
  | swap e f _ entries => exact .swap f e entries
  | trans _ _ ih ihmore => exact ih.trans ihmore

/-- The links of one inner class stay in their order. -/
theorem filter_links (h : Reorders pool entries others) (id : ClassId) :
    (links pool entries).filter (·.inner == id) = (links pool others).filter (·.inner == id) := by
  induction h with
  | nil => rfl
  | cons e _ ih =>
    rw [links, links, List.filterMap_cons, List.filterMap_cons]
    cases e.link? pool with
    | none => exact ih
    | some link => rw [List.filter_cons, List.filter_cons, ← links, ← links, ih]
  | swap e f hapart entries =>
    simp only [links, List.filterMap_cons]
    cases he : e.link? pool with
    | none => rfl
    | some a =>
      cases hf : f.link? pool with
      | none => rfl
      | some b =>
        have hne := hapart _ _ (classAt_of_link? he) (classAt_of_link? hf)
        by_cases ha : a.inner == id
        · have hb : ¬ b.inner == id := by
            rw [ClassId.beq_iff_text_eq] at *
            exact fun hb => hne (ha.trans hb.symm)
          simp only [List.filter_cons, if_pos ha, if_neg hb]
        · simp only [List.filter_cons, if_neg ha]
  | trans _ _ ih ihmore => exact ih.trans ihmore

theorem entryOf_links (h : Reorders pool entries others) :
    InnerClass.entryOf (links pool entries) = InnerClass.entryOf (links pool others) := by
  funext id
  rw [InnerClass.entryOf, InnerClass.entryOf, h.filter_links id]

end Reorders

end InnerFrame

/-! ### Attributes -/

namespace AttributeOutline

variable {pool : ConstantPool}

def entries : AttributeOutline pool → List InnerFrame
  | innerClasses _ _ entries _ _ _ => entries
  | other _ _ => []

/-- The same attribute, where another inner-class table may stand in place of one. -/
inductive Retabled : AttributeOutline pool → AttributeOutline pool → Prop
  | innerClasses (name : UInt16) (means : pool.textAt name = .ok innerClassesName)
      (entries others : List InnerFrame) (rest : List UInt8) (count_lt : entries.length < 65536)
      (length_lt : _) (count_lt' : others.length < 65536) (length_lt' : _) :
      Retabled (.innerClasses name means entries rest count_lt length_lt)
        (.innerClasses name means others rest count_lt' length_lt')
  | other (frame : AttributeFrame) (means : pool.textAt frame.name ≠ .ok innerClassesName) :
      Retabled (.other frame means) (.other frame means)

/-- A step: the links of one attribute are taken in. -/
theorem inners_of_outcome {a : AttributeOutline pool} {said next : ClassAttributes}
    (h : a.outcome said = .ok next) : (∀ e ∈ a.entries, e.IsResolvable pool) ∧
      next.inners = said.inners.withLinks (InnerFrame.links pool a.entries) := by
  cases a with
  | innerClasses name means entries rest count_lt length_lt =>
    rw [outcome_innerClasses] at h
    obtain ⟨inners, hinners, hnext⟩ := bind_eq_ok_iff.1 h
    rw [← Except.ok.inj hnext]
    exact InnerFrame.foldlM_addTo_eq_ok_iff.1 hinners
  | other frame means =>
    exact ⟨fun e he => absurd he List.not_mem_nil, inners_outcome_other means h⟩

/-- A run: the links of all attributes are taken in. -/
theorem inners_of_foldlM_outcome {attributes : List (AttributeOutline pool)}
    {said next : ClassAttributes} (h : attributes.foldlM outcome said = .ok next) :
    (∀ e ∈ attributes.flatMap entries, e.IsResolvable pool) ∧
      next.inners = said.inners.withLinks (InnerFrame.links pool (attributes.flatMap entries)) := by
  induction attributes generalizing said with
  | nil => exact ⟨fun e he => absurd he List.not_mem_nil, Except.ok.inj h ▸ rfl⟩
  | cons a attributes ih =>
    rw [List.foldlM_cons, bind_eq_ok_iff] at h
    obtain ⟨middle, hmiddle, hnext⟩ := h
    obtain ⟨hresolvable, hinners⟩ := inners_of_outcome hmiddle
    obtain ⟨hothers, hlast⟩ := ih hnext
    rw [List.flatMap_cons]
    refine ⟨List.forall_mem_append.2 ⟨hresolvable, hothers⟩, ?_⟩
    rw [hlast, hinners, InnerFrame.links_append, InnerTable.withLinks_append]

/-- A step: another inner-class table is taken in as well, if its entries can be resolved. -/
theorem Retabled.outcome {a b : AttributeOutline pool} (h : a.Retabled b)
    (hresolvable : ∀ e ∈ b.entries, e.IsResolvable pool) {said other next : ClassAttributes}
    (hsaid : other = { said with inners := other.inners }) (hnext : a.outcome said = .ok next) :
    ∃ last, b.outcome other = .ok last ∧ last = { next with inners := last.inners } := by
  cases h with
  | innerClasses name means entries others rest count_lt length_lt count_lt' length_lt' =>
    rw [outcome_innerClasses] at hnext
    obtain ⟨inners, -, hnext⟩ := bind_eq_ok_iff.1 hnext
    have hothers : others.foldlM (InnerFrame.addTo pool) other.inners = .ok _ :=
      InnerFrame.foldlM_addTo_eq_ok_iff.2 ⟨hresolvable, rfl⟩
    rw [outcome_innerClasses, hothers, ← Except.ok.inj hnext]
    refine ⟨_, rfl, ?_⟩
    rw [hsaid]
  | other frame means =>
    have hlast := outcome_other_withInners means hnext other.inners
    rw [← hsaid] at hlast
    exact ⟨_, hlast, rfl⟩

end AttributeOutline

/-! ### Class files -/

namespace ClassOutline

variable {expected : Option ClassId}

def entries (o : ClassOutline expected) : List InnerFrame :=
  o.attributes.flatMap AttributeOutline.entries

def links (o : ClassOutline expected) : List InnerClass :=
  InnerFrame.links o.opening.pool o.entries

def withAttributes (o : ClassOutline expected)
    (attributes : List (AttributeOutline o.opening.pool)) (h : attributes.length < 65536) :
    ClassOutline expected :=
  { o with attributes, attributes_lt := h }

/-- The same class file, where entries of different inner classes have changed places. -/
inductive Reorders (o : ClassOutline expected) : ClassOutline expected → Prop
  | mk (attributes : List (AttributeOutline o.opening.pool))
      (hattributes : List.Forall₂ AttributeOutline.Retabled o.attributes attributes)
      (hentries : InnerFrame.Reorders o.opening.pool o.entries
        (attributes.flatMap AttributeOutline.entries))
      (hcount : attributes.length < 65536) :
      Reorders o (o.withAttributes attributes hcount)

/-- The table of a class file has the entries of all its inner-class tables. -/
theorem getElem?_inners {o : ClassOutline expected} {said : ClassAttributes}
    (hsaid : o.said = .ok said) (id : ClassId) :
    said.inners[id.text]? = InnerClass.entryOf o.links id := by
  have hinners := (AttributeOutline.inners_of_foldlM_outcome hsaid).2
  rw [hinners]
  exact InnerTable.getElem?_withLinks o.links id

/-- What a class is inside all the classes around it comes from the chain of its links. -/
theorem gathers_concealment {o : ClassOutline expected} {said : ClassAttributes}
    (hsaid : o.said = .ok said) :
    (Concealment.own o.declared.id o.flags).Gathers
      (ClassFile.ofParts o.opening o.flags o.declared said).concealment
      (InnerClass.OnChain (InnerClass.entryOf o.links) o.declared.id) :=
  Concealment.gathers_within (getElem?_inners hsaid) o.declared.id o.flags

theorem Reorders.exists_said {o g : ClassOutline expected} (h : o.Reorders g)
    {said : ClassAttributes} (hsaid : o.said = .ok said) : ∃ other, g.said = .ok other := by
  cases h with
  | mk attributes hattributes hentries hcount =>
    have hresolvable : ∀ b ∈ attributes, ∀ e ∈ b.entries, e.IsResolvable o.opening.pool := by
      intro b hb e he
      apply (AttributeOutline.inners_of_foldlM_outcome hsaid).1
      exact hentries.perm.mem_iff.2 (List.mem_flatMap.2 ⟨b, hb, he⟩)
    have hflipped : List.Forall₂ (fun b a : AttributeOutline o.opening.pool => a.Retabled b)
        attributes o.attributes := .flip hattributes
    have hboth := (List.forall₂_and_left _ _).2 ⟨hresolvable, hflipped⟩
    obtain ⟨other, hother, -⟩ := foldlM_related
      (R := fun said other : ClassAttributes => other = { said with inners := other.inners })
      (fun _ _ _ _ _ hsaid h hnext => h.2.outcome h.1 hsaid hnext) hboth.flip (t := {}) rfl hsaid
    exact ⟨other, hother⟩

theorem Reorders.concealment_eq {o g : ClassOutline expected} (h : o.Reorders g)
    {said other : ClassAttributes} (hsaid : o.said = .ok said) (hother : g.said = .ok other) :
    (ClassFile.ofParts g.opening g.flags g.declared other).concealment =
      (ClassFile.ofParts o.opening o.flags o.declared said).concealment := by
  have hgathers := gathers_concealment hother
  cases h with
  | mk attributes hattributes hentries hcount =>
    refine hgathers.unique ?_
    have hlinks : InnerClass.entryOf o.links = InnerClass.entryOf _ := hentries.entryOf_links
    have h := gathers_concealment hsaid
    rw [hlinks] at h
    exact h

end ClassOutline

namespace Analysis

/-- What a loaded class file answers comes from the links of the chain of its class. With its
entries of different inner classes in any other order it is loaded, too, and answers the same. -/
theorem concealment_of_load {expected : Option ClassId} {bytes : List UInt8}
    {before after : Analysis} (hload : (load expected bytes).run before = .ok () after) :
    (∃ o : ClassOutline expected, bytes = o.bytes) ∧
      ∀ o : ClassOutline expected, bytes = o.bytes →
        after.id? = some o.declared.id ∧ after.flags = o.flags ∧
        (∃ c : Concealment, after.visibility? = some c.visibility ∧
          after.isSynthetic = c.synthetic ∧ after.isAnonymous = c.anonymous ∧
          (Concealment.own o.declared.id o.flags).Gathers c
            (InnerClass.OnChain (InnerClass.entryOf o.links) o.declared.id)) ∧
        ∀ g, o.Reorders g → ∀ place, ∃ reordered : Analysis,
          (load expected g.bytes).run place = .ok () reordered ∧
            reordered.visibility? = after.visibility? ∧
            reordered.isSynthetic = after.isSynthetic ∧
            reordered.isAnonymous = after.isAnonymous := by
  obtain ⟨c, hdecode, rfl⟩ := load_eq_ok_iff.1 hload
  refine ⟨ClassOutline.exists_of_decode hdecode, ?_⟩
  rintro o rfl
  obtain ⟨said, hsaid, rfl⟩ := o.decode_eq_ok_iff.1 hdecode
  refine ⟨rfl, rfl, ⟨_, rfl, rfl, rfl, ClassOutline.gathers_concealment hsaid⟩, ?_⟩
  intro g hreorders place
  obtain ⟨other, hother⟩ := hreorders.exists_said hsaid
  have hconcealment := hreorders.concealment_eq hsaid hother
  refine ⟨_, load_eq_ok_iff.2 ⟨_, g.decode_eq_ok_iff.2 ⟨other, hother, rfl⟩, rfl⟩, ?_⟩
  simp only [visibility?, isSynthetic, isAnonymous, ask, Option.map_some, hconcealment, and_self]

theorem textAt_nestedClass : nestedClass.opening.pool.textAt 7 = .ok innerClassesName :=
  rfl

/-- A class `C` inside a class `D` that is inside `C` again, where it is private and synthetic. -/
def circularClass : ClassOutline none :=
  nestedClass.withAttributes [.innerClasses 7 textAt_nestedClass
    [⟨2, 4, 1, 0x0009⟩, ⟨4, 2, 3, 0x100A⟩] [] (by decide) (by decide)] (by decide)

/-- The same class, with the two entries the other way round. -/
def circularClassReordered : ClassOutline none :=
  nestedClass.withAttributes [.innerClasses 7 textAt_nestedClass
    [⟨4, 2, 3, 0x100A⟩, ⟨2, 4, 1, 0x0009⟩] [] (by decide) (by decide)] (by decide)

theorem circularClass_reorders : circularClass.Reorders circularClassReordered := by
  have hapart : InnerFrame.IsApart circularClass.opening.pool ⟨2, 4, 1, 0x0009⟩
      ⟨4, 2, 3, 0x100A⟩ := by
    intro a b ha hb
    obtain rfl : ClassId.ofName (.ofText "C") = a := Except.ok.inj ha
    obtain rfl : ClassId.ofName (.ofText "D") = b := Except.ok.inj hb
    rw [ClassId.beq_iff_text_eq]
    decide +kernel
  have hentries : InnerFrame.Reorders circularClass.opening.pool
      [⟨2, 4, 1, 0x0009⟩, ⟨4, 2, 3, 0x100A⟩] [⟨4, 2, 3, 0x100A⟩, ⟨2, 4, 1, 0x0009⟩] :=
    .of_perm (.swap _ _ _) (.cons (by simpa using hapart) (List.pairwise_singleton _ _))
  exact .mk _ (.cons (.innerClasses 7 textAt_nestedClass _ _ [] _ _ _ _) .nil) hentries (by decide)

theorem concealment_of_load_circularClass :
    circularClass.Reorders circularClassReordered ∧
      ∃ loaded : Analysis, (load none circularClass.bytes).run {} = .ok () loaded ∧
        loaded.visibility? = some .privateAccess ∧ loaded.isSynthetic = true ∧
        loaded.isAnonymous = false ∧ ∀ place, ∃ reordered : Analysis,
          (load none circularClassReordered.bytes).run place = .ok () reordered ∧
            reordered.visibility? = some .privateAccess ∧ reordered.isSynthetic = true ∧
            reordered.isAnonymous = false := by
  have hdecode := circularClass.decode_eq_ok_iff.2 ⟨_, rfl, rfl⟩
  obtain ⟨loaded, hload, hvisibility, hsynthetic, hanonymous⟩ : ∃ loaded : Analysis,
      (load none circularClass.bytes).run {} = .ok () loaded ∧
        loaded.visibility? = some .privateAccess ∧ loaded.isSynthetic = true ∧
        loaded.isAnonymous = false :=
    ⟨_, load_eq_ok_iff.2 ⟨_, hdecode, rfl⟩, by decide +kernel, by decide +kernel,
      by decide +kernel⟩
  refine ⟨circularClass_reorders, loaded, hload, hvisibility, hsynthetic, hanonymous,
    fun place => ?_⟩
  obtain ⟨-, -, -, hreorders⟩ := (concealment_of_load hload).2 circularClass rfl
  rw [← hvisibility, ← hsynthetic, ← hanonymous]
  exact hreorders circularClassReordered circularClass_reorders place

end Analysis

end ClassAtlas
