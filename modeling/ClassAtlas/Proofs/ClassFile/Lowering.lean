import ClassAtlas.Proofs.ClassFile.Outline
import ClassAtlas.Proofs.Containment.Lowering

/-!
# Hiding a class hides no less

The access bits of a class and of the entries of its inner-class tables may be changed so that
each encodes a level that is at most the one before. The class file is still loaded, it lists
the same members, and none of these is shown where it was not shown before.
-/

namespace ClassAtlas

/-! ### What a less visible class shows -/

structure ClassFile.LowersTo (c lowered : ClassFile) : Prop where
  id_eq : lowered.id = c.id
  members_eq (kind : MemberKind) : lowered.membersOf kind = c.membersOf kind
  flags : c.flags.LowersTo lowered.flags
  inners : c.attributes.inners.LowersTo lowered.attributes.inners

theorem Member.shown?_mono {kind : MemberKind} {inner outer : Visibility} (h : inner ≤ outer)
    {m : Member} {line : String} {level : Visibility}
    (hshown : m.shown? kind inner = some (line, level)) :
    ∃ higher, level ≤ higher ∧ m.shown? kind outer = some (line, higher) := by
  have hmeet : inner.meet m.visibility ≤ outer.meet m.visibility :=
    Visibility.meet_le_meet h (Nat.le_refl _)
  unfold shown? at hshown ⊢
  split at hshown
  · next hvisible =>
    obtain ⟨rfl, rfl⟩ := Prod.mk.inj (Option.some.inj hshown)
    rw [Bool.and_eq_true] at hvisible
    rw [if_pos (by rw [hvisible.1, Visibility.isVisible_mono hmeet hvisible.2]; rfl)]
    exact ⟨_, hmeet, rfl⟩
  · contradiction

/-- No member has the line of its class, for behind the name of the class stands a dot. -/
theorem Member.line_ne {m : Member} {c : ClassFile} (h : m.container = c.id) :
    m.line ≠ c.line := by
  intro hlines
  obtain ⟨rest, hrest⟩ : ∃ rest : String, m.line = c.id.text ++ ("." ++ rest) := by
    unfold line
    rw [h]
    simp only [String.append_assoc]
    exact ⟨_, rfl⟩
  obtain ⟨more, hmore⟩ : ∃ more : String, c.line = c.id.text ++ (" " ++ more) := by
    unfold ClassFile.line
    simp only [String.append_assoc]
    exact ⟨_, rfl⟩
  rw [hrest, hmore, ← String.toList_inj] at hlines
  simp at hlines

namespace ClassFile

variable {c lowered : ClassFile}

theorem LowersTo.concealment (h : c.LowersTo lowered) :
    c.concealment.LowersTo lowered.concealment := by
  unfold ClassFile.concealment
  rw [h.id_eq]
  exact .within h.inners h.flags c.id

theorem LowersTo.exists_shownMembers (h : c.LowersTo lowered) {kind : MemberKind} {line : String}
    {level : Visibility} (hline : (line, level) ∈ lowered.shownMembers kind) :
    ∃ higher, level ≤ higher ∧ (line, higher) ∈ c.shownMembers kind := by
  obtain ⟨m, hm, hshown⟩ := List.mem_filterMap.1 hline
  obtain ⟨higher, hle, hhigher⟩ := Member.shown?_mono h.concealment.visibility_le hshown
  rw [h.members_eq] at hm
  exact ⟨higher, hle, List.mem_filterMap.2 ⟨m, hm, hhigher⟩⟩

/-- Every line that is shown, but that of the class, was shown before and not below its level. -/
theorem LowersTo.exists_shownLines (h : c.LowersTo lowered) {line : String} {level : Visibility}
    (hother : line ≠ lowered.line) (hline : (line, level) ∈ lowered.shownLines) :
    ∃ higher, level ≤ higher ∧ (line, higher) ∈ c.shownLines := by
  rw [shownLines_eq, h.concealment.anonymous_eq, h.concealment.synthetic_eq] at hline
  rw [shownLines_eq]
  split at hline
  · contradiction
  · next hlisted =>
    rw [if_neg hlisted]
    simp only [List.mem_append] at hline ⊢
    rcases hline with hclass | hfield | hmethod
    · have hpair := List.mem_singleton.1 (List.mem_filter.1 hclass).1
      exact absurd (Prod.mk.inj hpair).1 hother
    · obtain ⟨higher, hle, hhigher⟩ := h.exists_shownMembers hfield
      exact ⟨higher, hle, .inr (.inl hhigher)⟩
    · obtain ⟨higher, hle, hhigher⟩ := h.exists_shownMembers hmethod
      exact ⟨higher, hle, .inr (.inr hhigher)⟩

theorem LowersTo.mem_addTo (h : c.LowersTo lowered) {line : String} (hother : line ≠ lowered.line)
    (p : Profile) :
    (line ∈ (lowered.addTo p).publicLines → line ∈ (c.addTo p).publicLines) ∧
      (line ∈ (lowered.addTo p).packageLines → line ∈ (c.addTo p).packageLines) := by
  have hbefore := Profile.mem_foldl_add c.shownLines p line
  have hafter := Profile.mem_foldl_add lowered.shownLines p line
  unfold addTo
  rw [hbefore.1, hbefore.2, hafter.1, hafter.2]
  constructor
  · rintro (hp | ⟨level, hlevel, hpublic⟩)
    · exact .inl hp
    · obtain ⟨higher, hle, hhigher⟩ := h.exists_shownLines hother hlevel
      exact .inr ⟨higher, hhigher, Visibility.isPublicSurface_mono hle hpublic⟩
  · rintro (hp | ⟨level, hlevel⟩)
    · exact .inl hp
    · obtain ⟨higher, -, hhigher⟩ := h.exists_shownLines hother hlevel
      exact .inr ⟨higher, hhigher⟩

end ClassFile

/-! ### Lowered outlines -/

structure InnerFrame.LowersTo (e lowered : InnerFrame) : Prop where
  inner_eq : lowered.inner = e.inner
  outer_eq : lowered.outer = e.outer
  name_eq : lowered.name = e.name
  flags : e.flags.LowersTo lowered.flags

theorem InnerFrame.LowersTo.addTo {pool : ConstantPool} {e lowered : InnerFrame}
    (h : e.LowersTo lowered) {table other next : InnerTable} (htable : table.LowersTo other)
    (hnext : e.addTo pool table = .ok next) :
    ∃ last, lowered.addTo pool other = .ok last ∧ next.LowersTo last := by
  unfold InnerFrame.addTo at hnext ⊢
  rw [h.inner_eq, h.outer_eq]
  split
  · next hmissing =>
    rw [if_pos hmissing] at hnext
    exact ⟨other, rfl, Except.ok.inj hnext ▸ htable⟩
  · next hboth =>
    rw [if_neg hboth] at hnext
    obtain ⟨inner, hinner, hnext⟩ := bind_eq_ok_iff.1 hnext
    obtain ⟨outer, houter, hnext⟩ := bind_eq_ok_iff.1 hnext
    have hlink : InnerClass.LowersTo ⟨inner, outer, e.flags⟩ ⟨inner, outer, lowered.flags⟩ :=
      ⟨rfl, rfl, h.flags⟩
    rw [hinner, houter, ← Except.ok.inj hnext]
    exact ⟨_, rfl, htable.insert hlink inner.text⟩

namespace ClassAttributes

/-- The same attributes, but for a lowered inner-class table. -/
structure LowersTo (said lowered : ClassAttributes) : Prop where
  others_eq : lowered = { said with inners := lowered.inners }
  inners : said.inners.LowersTo lowered.inners

end ClassAttributes

/-- The same attribute, where the entries of an inner-class table may be lowered. -/
inductive AttributeOutline.LowersTo {pool : ConstantPool} :
    AttributeOutline pool → AttributeOutline pool → Prop
  | innerClasses (name : UInt16) (means : pool.textAt name = .ok innerClassesName)
      {entries lowered : List InnerFrame} (h : List.Forall₂ InnerFrame.LowersTo entries lowered)
      (rest : List UInt8) (count_lt : entries.length < 65536) (length_lt : _)
      (count_lt' : lowered.length < 65536) (length_lt' : _) :
      LowersTo (.innerClasses name means entries rest count_lt length_lt)
        (.innerClasses name means lowered rest count_lt' length_lt')
  | other (frame : AttributeFrame) (means : pool.textAt frame.name ≠ .ok innerClassesName) :
      LowersTo (.other frame means) (.other frame means)

/-- A step: a lowered attribute is taken in, if the attribute was. -/
theorem AttributeOutline.LowersTo.outcome {pool : ConstantPool} {a b : AttributeOutline pool}
    (h : a.LowersTo b) {said other next : ClassAttributes} (hsaid : said.LowersTo other)
    (hnext : a.outcome said = .ok next) :
    ∃ last, b.outcome other = .ok last ∧ next.LowersTo last := by
  cases h with
  | innerClasses name means h rest count_lt length_lt count_lt' length_lt' =>
    rw [outcome_innerClasses] at hnext
    obtain ⟨inners, hinners, hnext⟩ := bind_eq_ok_iff.1 hnext
    obtain ⟨lowered, hlowered, hrelated⟩ := foldlM_related
      (fun _ _ _ _ _ htable he hadd => he.addTo htable hadd) h hsaid.inners hinners
    rw [outcome_innerClasses, hlowered, ← Except.ok.inj hnext, hsaid.others_eq]
    exact ⟨_, rfl, rfl, hrelated⟩
  | other frame means =>
    have hinners := inners_outcome_other means hnext
    have hlast := outcome_other_withInners means hnext other.inners
    rw [← hsaid.others_eq] at hlast
    exact ⟨_, hlast, rfl, hinners ▸ hsaid.inners⟩

/-- The same class file, with lowered flags of the class and of the entries of its inner-class
tables. -/
inductive ClassOutline.LowersTo {expected : Option ClassId} (o : ClassOutline expected) :
    ClassOutline expected → Prop
  | mk (flags : AccessFlags) (attributes : List (AttributeOutline o.opening.pool))
      (hflags : o.flags.LowersTo flags)
      (hattributes : List.Forall₂ AttributeOutline.LowersTo o.attributes attributes)
      (hcount : attributes.length < 65536) :
      LowersTo o { o with flags, attributes, attributes_lt := hcount }

theorem ClassOutline.LowersTo.decode {expected : Option ClassId} {o lowered : ClassOutline expected}
    (h : o.LowersTo lowered) {c : ClassFile} (hc : ClassFile.decode expected o.bytes = .ok c) :
    ∃ d, ClassFile.decode expected lowered.bytes = .ok d ∧ c.LowersTo d ∧
      ∀ m ∈ d.members, m.container = d.id := by
  obtain ⟨said, hsaid, rfl⟩ := o.decode_eq_ok_iff.1 hc
  cases h with
  | mk flags attributes hflags hattributes hcount =>
    have hempty : ClassAttributes.LowersTo {} {} := ⟨rfl, InnerTable.lowersTo_empty⟩
    obtain ⟨other, hother, hlowers⟩ := foldlM_related
      (fun _ _ _ _ _ hsaid h hnext => h.outcome hsaid hnext) hattributes hempty hsaid
    obtain ⟨hfields, hmethods⟩ := ClassFile.belongs_readDeclared expected o.opening.pool
      ⟨0, o.body ++ []⟩ o.declared _ (o.decodes_body 0 [])
    refine ⟨_, (ClassOutline.decode_eq_ok_iff _).2 ⟨other, hother, rfl⟩, ?_, fun m hm => ?_⟩
    · exact ⟨rfl, fun kind => by cases kind <;> rfl, hflags, hlowers.inners⟩
    · rcases List.mem_append.1 hm with hm | hm
      · exact (hfields m hm).1
      · exact (hmethods m hm).1

namespace Analysis

/-- A class file that loads has an outline. Lowering the flags in it in any way, it is loaded,
too, and no line of a field or a method is added to a profile to which it was not added before. -/
theorem mem_addTo_of_lowersTo {expected : Option ClassId} {bytes : List UInt8}
    {before after : Analysis} (hload : (load expected bytes).run before = .ok () after) :
    (∃ o : ClassOutline expected, bytes = o.bytes) ∧
      ∀ o : ClassOutline expected, bytes = o.bytes → ∀ g, o.LowersTo g → ∀ place,
        ∃ lowered : Analysis, (load expected g.bytes).run place = .ok () lowered ∧
          ∀ m ∈ lowered.fields ++ lowered.methods, ∀ p : Profile,
            (m.line ∈ (lowered.addTo p).publicLines → m.line ∈ (after.addTo p).publicLines) ∧
              (m.line ∈ (lowered.addTo p).packageLines →
                m.line ∈ (after.addTo p).packageLines) := by
  obtain ⟨c, hdecode, rfl⟩ := load_eq_ok_iff.1 hload
  constructor
  · exact ClassOutline.exists_of_decode hdecode
  · rintro o rfl g hlowers place
    obtain ⟨d, hd, hlowered, hcontainers⟩ := hlowers.decode hdecode
    refine ⟨⟨some d⟩, load_eq_ok_iff.2 ⟨d, hd, rfl⟩, fun m hm p => ?_⟩
    exact hlowered.mem_addTo (Member.line_ne (hcontainers m hm)) p

def nestedConstants : WrittenPool :=
  ⟨[⟨.text "C", _, [0x43], by decide, by decide, rfl⟩, ⟨.classInfo 1, _, rfl⟩,
    ⟨.text "D", _, [0x44], by decide, by decide, rfl⟩, ⟨.classInfo 3, _, rfl⟩,
    ⟨.text "n", _, [0x6E], by decide, by decide, rfl⟩,
    ⟨.text "()I", _, [0x28, 0x29, 0x49], by decide, by decide, rfl⟩,
    ⟨.text "InnerClasses", _,
      [0x49, 0x6E, 0x6E, 0x65, 0x72, 0x43, 0x6C, 0x61, 0x73, 0x73, 0x65, 0x73], by decide,
      by decide, rfl⟩]⟩

theorem nestedConstants_resolvable : nestedConstants.layout.IsResolvable := by
  unfold PoolLayout.IsResolvable
  simp only [nestedConstants, WrittenPool.layout, List.map_cons, List.map_nil, List.forall_mem_cons]
  decide

/-- A public class `C` inside a public class `D`, with a public method `n`. -/
def nestedClass : ClassOutline none where
  opening := ⟨0, 52, nestedConstants.layout.pool⟩
  front := u4Bytes ClassFile.magic ++ (u2Bytes 0 ++ (u2Bytes 52 ++ nestedConstants.bytes))
  flags := 0x0021
  declared :=
    { id := .ofName (.ofText "C")
      superclass := none
      interfaces := []
      fields := []
      methods := [{
        kind := .method
        container := .ofName (.ofText "C")
        flags := 0x0001
        name := "n"
        erasedDescriptor := "()I" }] }
  body := [0, 2, 0, 0, 0, 0, 0, 0, 0, 1, 0, 1, 0, 5, 0, 6, 0, 0]
  attributes := [.innerClasses 7 rfl [⟨2, 4, 1, 0x0009⟩] [] (by decide) (by decide)]
  trailing := []
  decodes_front := ClassFile.decodes_readOpening 0 52 (by decide) nestedConstants_resolvable
  decodes_body := by
    let pool := nestedConstants.layout.pool
    have hid : Decodes pool.readClass (u2Bytes 2) (.ofName (.ofText "C")) :=
      pool.yields_readClass 2
    have hsuperclass : Decodes (ClassFile.readOptionalClass pool) (u2Bytes 0) none :=
      ClassFrame.yields_readOptionalClass pool 0
    have hmethods := Yields.counted [(⟨0x0001, 5, 6, [], by decide⟩ : MemberFrame)] (by decide)
      fun m _ => m.yields_read .method (.ofName (.ofText "C")) pool
    have hnone {α : Type} (item : Decoder α) : Decodes (Decoder.counted item) (u2Bytes 0) [] :=
      (Decodes.u2 0).last (.pure [])
    exact hid.bind (.after (.pure ()) (hsuperclass.bind ((hnone _).bind ((hnone _).bind
      (hmethods.decodes.last (.pure _))))))
  attributes_lt := by decide

/-- The same class, less visible in itself and private inside the other. -/
def nestedClassLowered : ClassOutline none :=
  { nestedClass with
    flags := 0x0020
    attributes := [.innerClasses 7 rfl [⟨2, 4, 1, 0x000A⟩] [] (by decide) (by decide)]
    attributes_lt := by decide }

theorem nestedClass_lowersTo : nestedClass.LowersTo nestedClassLowered := by
  have hentry : InnerFrame.LowersTo ⟨2, 4, 1, 0x0009⟩ ⟨2, 4, 1, 0x000A⟩ :=
    ⟨rfl, rfl, rfl, ⟨by decide, by decide⟩⟩
  refine .mk 0x0020 _ ⟨by decide, by decide⟩ ?_ (by decide)
  exact .cons (.innerClasses 7 rfl (.cons hentry .nil) [] _ _ _ _) .nil

theorem mem_addTo_of_lowersTo_nestedClass :
    nestedClass.LowersTo nestedClassLowered ∧
      ∃ loaded : Analysis, (load none nestedClass.bytes).run {} = .ok () loaded ∧
        ∀ place, ∃ lowered : Analysis,
          (load none nestedClassLowered.bytes).run place = .ok () lowered ∧
            ∀ m ∈ lowered.fields ++ lowered.methods, ∀ p : Profile,
              (m.line ∈ (lowered.addTo p).publicLines → m.line ∈ (loaded.addTo p).publicLines) ∧
                (m.line ∈ (lowered.addTo p).packageLines →
                  m.line ∈ (loaded.addTo p).packageLines) := by
  have hdecode := nestedClass.decode_eq_ok_iff.2 ⟨_, rfl, rfl⟩
  have hload : (load none nestedClass.bytes).run {} = .ok () _ :=
    load_eq_ok_iff.2 ⟨_, hdecode, rfl⟩
  refine ⟨nestedClass_lowersTo, _, hload, ?_⟩
  exact (mem_addTo_of_lowersTo hload).2 nestedClass rfl nestedClassLowered nestedClass_lowersTo

end Analysis

end ClassAtlas
