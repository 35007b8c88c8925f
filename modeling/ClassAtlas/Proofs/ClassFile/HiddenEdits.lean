import Mathlib.Logic.Relation
import ClassAtlas.Proofs.ClassFile.Frame
import ClassAtlas.Proofs.ClassFile.Truncation
import ClassAtlas.Proofs.ConstantPool.Growth

/-!
# Edits that no profile shows

A class file may get more constants, more members that are hidden, attributes that nothing
reads and another order of its members. Every later byte moves, but the class file is still
loaded, and what it adds to a profile stays the same.
-/

namespace ClassAtlas

variable {α β σ : Type}

/-! ### Reading parts in a larger pool -/

theorem foldlM_eq_ok_mono {f g : σ → α → Except Error σ}
    (h : ∀ s a t, f s a = .ok t → g s a = .ok t) {l : List α} {s t : σ}
    (hf : l.foldlM f s = .ok t) : l.foldlM g s = .ok t := by
  obtain ⟨_, hg, rfl⟩ := foldlM_related (R := Eq) (Q := Eq)
    (fun s _ a _ next hs ha hnext => ⟨next, hs ▸ ha ▸ h s a next hnext, rfl⟩)
    (List.forall₂_refl l) rfl hf
  exact hg

theorem mapM_eq_ok_mono {f g : α → Except Error β} (h : ∀ a b, f a = .ok b → g a = .ok b)
    {l : List α} {bs : List β} (hf : l.mapM f = .ok bs) : l.mapM g = .ok bs := by
  rw [mapM_eq_ok_iff] at hf ⊢
  exact hf.imp h

section

variable {pool larger : ConstantPool} (h : pool.Extends larger)

include h

theorem AttributeFrame.outcome_extends {decoder decoder' : String → Decoder σ}
    (hdecoder : ∀ name, Refines (decoder name) (decoder' name)) {a : AttributeFrame} {s : σ}
    (ha : a.outcome pool decoder = .ok s) : a.outcome larger decoder' = .ok s := by
  obtain ⟨name, hname, hbody⟩ := bind_eq_ok_iff.1 ha
  exact bind_eq_ok_iff.2 ⟨name, h.textAt hname, (hdecoder name).alone hbody⟩

theorem MemberFrame.outcome_extends {kind : MemberKind} {container : ClassId} {f : MemberFrame}
    {m : Member} (hm : f.outcome kind container pool = .ok m) :
    f.outcome kind container larger = .ok m := by
  obtain ⟨name, hname, hrest⟩ := bind_eq_ok_iff.1 hm
  obtain ⟨descriptor, hdescriptor, hattributes⟩ := bind_eq_ok_iff.1 hrest
  refine bind_eq_ok_iff.2 ⟨name, h.textAt hname, bind_eq_ok_iff.2 ⟨descriptor,
    h.textAt hdescriptor, foldlM_eq_ok_mono (fun m a next ha => ?_) hattributes⟩⟩
  exact a.outcome_extends h (fun name => Member.refines_readAttribute h name m) ha

theorem ClassFrame.said_extends {attributes : List AttributeFrame} {s : ClassAttributes}
    (hs : said pool attributes = .ok s) : said larger attributes = .ok s :=
  foldlM_eq_ok_mono (fun said a _ ha =>
    a.outcome_extends h (fun name => ClassAttributes.refines_readBody h name said) ha) hs

theorem ConstantPool.Extends.optionalClassAt {index : UInt16} {id : Option ClassId}
    (hid : pool.optionalClassAt index = .ok id) : larger.optionalClassAt index = .ok id := by
  unfold ConstantPool.optionalClassAt at hid ⊢
  split
  · next hzero => rwa [if_pos hzero] at hid
  · next hzero =>
    rw [if_neg hzero] at hid
    obtain ⟨found, hfound, hsome⟩ := bind_eq_ok_iff.1 hid
    exact bind_eq_ok_iff.2 ⟨found, h.classAt hfound, hsome⟩

end

/-! ### The edits -/

/-- The attribute has a name, and one that is not among those given. -/
def AttributeFrame.IsPassedOver (a : AttributeFrame) (pool : ConstantPool) (names : List String) :
    Prop :=
  ∃ name, pool.textAt a.name = .ok name ∧ name ∉ names

/-- The pool with more entries behind its own. -/
def WrittenPool.append (p : WrittenPool) (more : List WrittenItem) : WrittenPool :=
  ⟨p.items ++ more⟩

theorem WrittenPool.layout_append (p : WrittenPool) (more : List WrittenItem) :
    (p.append more).layout = p.layout.append (more.map WrittenItem.item) := by
  simp [layout, append, PoolLayout.append]

def ClassFrame.withMembers (f : ClassFrame) (kind : MemberKind) (members : List MemberFrame)
    (h : members.length < 65536) : ClassFrame :=
  match kind with
  | .field => { f with fields := members, fields_lt := h }
  | .method => { f with methods := members, methods_lt := h }

/-- An edit of a class file that leaves alone what others can see of the class. -/
inductive HiddenEdit (f : ClassFrame) : ClassFrame → Prop
  | appendConstants (more : List WrittenItem)
      (hslots : (f.constants.append more).layout.table.length < 65536)
      (hmore : ∀ entry ∈ more, entry.item.raw?.isSome →
        ((f.constants.append more).layout.meaning? entry.item).isSome) :
      HiddenEdit f { f with constants := f.constants.append more, constants_lt := hslots }
  | insertMember (kind : MemberKind) (front back : List MemberFrame) (m : MemberFrame)
      (container : ClassId) (decoded : Member) (hlength : (front ++ m :: back).length < 65536)
      (hmembers : f.members kind = front ++ back)
      (hcontainer : f.pool.classAt f.id = .ok container)
      (hdecodes : Decodes (Member.read kind container f.pool) m.bytes decoded)
      (hidden : decoded.IsHidden kind) :
      HiddenEdit f (f.withMembers kind (front ++ m :: back) hlength)
  | permuteMembers (kind : MemberKind) (members : List MemberFrame)
      (hlength : members.length < 65536) (hmembers : members.Perm (f.members kind)) :
      HiddenEdit f (f.withMembers kind members hlength)
  | insertAttribute (front back : List AttributeFrame) (a : AttributeFrame)
      (hlength : (front ++ a :: back).length < 65536) (hattributes : f.attributes = front ++ back)
      (hname : a.IsPassedOver f.pool ClassAttributes.attributeNames) :
      HiddenEdit f { f with attributes := front ++ a :: back, attributes_lt := hlength }
  | insertMemberAttribute (kind : MemberKind) (before behind : List MemberFrame) (m : MemberFrame)
      (front back : List AttributeFrame) (a : AttributeFrame)
      (hlength : (front ++ a :: back).length < 65536)
      (hcount : (before ++ { m with attributes := front ++ a :: back, length_lt := hlength } ::
        behind).length < 65536)
      (hmembers : f.members kind = before ++ m :: behind)
      (hattributes : m.attributes = front ++ back)
      (hname : a.IsPassedOver f.pool Member.attributeNames) :
      HiddenEdit f (f.withMembers kind
        (before ++ { m with attributes := front ++ a :: back, length_lt := hlength } :: behind)
        hcount)

/-! ### What an edit leaves alone -/

theorem AttributeFrame.IsPassedOver.outcome_eq {a : AttributeFrame} {pool : ConstantPool}
    {names : List String} (h : a.IsPassedOver pool names) {decoder : String → Decoder σ} {s : σ}
    (hdecoder : ∀ name ∉ names, decoder name = pure s) : a.outcome pool decoder = .ok s := by
  obtain ⟨name, hname, hother⟩ := h
  rw [AttributeFrame.outcome, hname]
  change (decoder name).alone a.body = .ok s
  rw [hdecoder name hother]
  rfl

/-- A step that leaves everything as it is may be put anywhere. -/
theorem foldlM_insert {f : σ → α → Except Error σ} {a : α} (h : ∀ s, f s a = .ok s)
    (front back : List α) (s : σ) :
    (front ++ a :: back).foldlM f s = (front ++ back).foldlM f s := by
  rw [List.foldlM_append, List.foldlM_append]
  congr 1
  funext next
  rw [List.foldlM_cons, h]
  rfl

namespace MemberFrame

variable {kind : MemberKind} {container : ClassId} {pool : ConstantPool}

theorem decodes_iff {f : MemberFrame} {m : Member} :
    Decodes (Member.read kind container pool) f.bytes m ↔
      f.outcome kind container pool = .ok m := by
  have hyields := f.yields_read kind container pool
  constructor
  · intro h
    rw [← hyields.alone_eq [], h.yields.alone_eq []]
  · intro h
    rw [h] at hyields
    exact hyields.decodes

theorem outcome_insertAttribute (kind : MemberKind) (container : ClassId) {f : MemberFrame}
    {front back : List AttributeFrame} {a : AttributeFrame}
    (hlength : (front ++ a :: back).length < 65536)
    (hattributes : f.attributes = front ++ back)
    (ha : a.IsPassedOver pool Member.attributeNames) :
    ({ f with attributes := front ++ a :: back, length_lt := hlength } : MemberFrame).outcome kind
      container pool = f.outcome kind container pool := by
  have hsame (m : Member) : a.outcome pool (fun name => m.readAttribute pool name) = .ok m :=
    ha.outcome_eq fun name hname => Member.readAttribute_of_notMem hname pool m
  simp only [outcome, hattributes, foldlM_insert hsame]

end MemberFrame

def ClassFile.withMembers (c : ClassFile) (kind : MemberKind) (members : List Member) : ClassFile :=
  match kind with
  | .field => { c with fields := members }
  | .method => { c with methods := members }

theorem ClassFile.shownLines_withMembers {c : ClassFile} {kind : MemberKind} {members : List Member}
    (h : (members.filterMap (Member.shown? kind c.concealment.visibility)).Perm
      (c.shownMembers kind)) : (c.withMembers kind members).shownLines.Perm c.shownLines := by
  cases kind with
  | field =>
    refine shownLines_perm rfl rfl fun kind => ?_
    cases kind with
    | field => exact h
    | method => exact .refl _
  | method =>
    refine shownLines_perm rfl rfl fun kind => ?_
    cases kind with
    | field => exact .refl _
    | method => exact h

namespace ClassFrame

variable {f : ClassFrame} {expected : Option ClassId} {c : ClassFile}

theorem Means.withMembers (h : f.Means expected c) {kind : MemberKind} {frames : List MemberFrame}
    {members : List Member} (hlength : frames.length < 65536)
    (hmembers : frames.mapM (MemberFrame.outcome kind c.id f.pool) = .ok members) :
    (f.withMembers kind frames hlength).Means expected (c.withMembers kind members) := by
  cases kind with
  | field =>
    exact { h with
      members_eq := fun kind => by
        cases kind with
        | field => exact hmembers
        | method => exact h.members_eq .method }
  | method =>
    exact { h with
      members_eq := fun kind => by
        cases kind with
        | field => exact h.members_eq .field
        | method => exact hmembers }

theorem Means.appendConstants (h : f.Means expected c) {more : List WrittenItem}
    (hslots : (f.constants.append more).layout.table.length < 65536)
    (hmore : ∀ entry ∈ more, entry.item.raw?.isSome →
      ((f.constants.append more).layout.meaning? entry.item).isSome) :
    ({ f with constants := f.constants.append more, constants_lt := hslots } : ClassFrame).Means
      expected { c with pool := (f.constants.append more).layout.pool } := by
  have hextends : f.pool.Extends (f.constants.append more).layout.pool := by
    rw [WrittenPool.layout_append]
    exact PoolLayout.extends_append f.constants.layout _
  have hresolvable : (f.constants.append more).layout.IsResolvable := by
    rw [WrittenPool.layout_append] at hmore ⊢
    refine h.isResolvable.append fun item hitem hkept => ?_
    obtain ⟨entry, hentry, rfl⟩ := List.mem_map.1 hitem
    exact hmore entry hentry hkept
  exact {
    isResolvable := hresolvable
    pool_eq := rfl
    minorVersion_eq := h.minorVersion_eq
    majorVersion_eq := h.majorVersion_eq
    flags_eq := h.flags_eq
    id_eq := hextends.classAt h.id_eq
    isExpected := h.isExpected
    superclass_eq := hextends.optionalClassAt h.superclass_eq
    interfaces_eq := mapM_eq_ok_mono (fun _ _ => hextends.classAt) h.interfaces_eq
    members_eq := fun kind =>
      mapM_eq_ok_mono (fun _ _ => MemberFrame.outcome_extends hextends) (h.members_eq kind)
    attributes_eq := said_extends hextends h.attributes_eq }

end ClassFrame

namespace HiddenEdit

variable {f g : ClassFrame} {expected : Option ClassId} {c : ClassFile}

/-- A step: the edited frame means a class file that shows the same. -/
theorem means (hedit : HiddenEdit f g) (h : f.Means expected c) :
    ∃ d, g.Means expected d ∧ d.shownLines.Perm c.shownLines := by
  cases hedit with
  | appendConstants more hslots hmore => exact ⟨_, h.appendConstants hslots hmore, .refl _⟩
  | insertMember kind front back m container decoded hlength hmembers hcontainer hdecodes hidden =>
    obtain rfl : container = c.id := Except.ok.inj (hcontainer.symm.trans h.id_eq)
    have hdecoded := h.members_eq kind
    rw [hmembers, List.mapM_append, bind_eq_ok_iff] at hdecoded
    obtain ⟨first, hfirst, hdecoded⟩ := hdecoded
    obtain ⟨second, hsecond, hall⟩ := bind_eq_ok_iff.1 hdecoded
    -- The new member is decoded beside the others, and is then left out of what is shown.
    have hinserted : (front ++ m :: back).mapM (MemberFrame.outcome kind c.id f.pool) =
        .ok (first ++ decoded :: second) := by
      rw [List.mapM_append, List.mapM_cons, hfirst, MemberFrame.decodes_iff.1 hdecodes, hsecond]
      rfl
    refine ⟨_, h.withMembers hlength hinserted, ClassFile.shownLines_withMembers ?_⟩
    rw [ClassFile.shownMembers, ← Except.ok.inj hall, List.filterMap_append, List.filterMap_append,
      List.filterMap_cons_none (hidden.shown?_eq_none _)]
  | permuteMembers kind members hlength hmembers =>
    have hdecoded := mapM_eq_ok_iff.1 (h.members_eq kind)
    -- What is decoded from a permuted table is a permutation of what was decoded.
    obtain ⟨decoded, hpermuted, hperm⟩ := List.perm_comp_forall₂ hmembers hdecoded
    refine ⟨_, h.withMembers hlength (mapM_eq_ok_iff.2 hpermuted),
      ClassFile.shownLines_withMembers ?_⟩
    exact hperm.filterMap _
  | insertAttribute front back a hlength hattributes hname =>
    have hsame (said : ClassAttributes) :
        a.outcome f.pool (fun name => said.readBody f.pool name) = .ok said :=
      hname.outcome_eq fun name hother => ClassAttributes.readBody_of_notMem hother f.pool said
    have hsaid : ClassFrame.said f.pool (front ++ a :: back) = .ok c.attributes := by
      rw [← h.attributes_eq, hattributes]
      exact foldlM_insert hsame front back {}
    exact ⟨c, { h with attributes_eq := hsaid }, .refl _⟩
  | insertMemberAttribute kind before behind m front back a hlength hcount hmembers hattributes
      hname =>
    have hsame := MemberFrame.outcome_insertAttribute kind c.id hlength hattributes hname
    have hdecoded := h.members_eq kind
    rw [hmembers] at hdecoded
    have hedited : (before ++ { m with attributes := front ++ a :: back, length_lt := hlength } ::
        behind).mapM (MemberFrame.outcome kind c.id f.pool) = .ok (c.membersOf kind) := by
      rw [← hdecoded, List.mapM_append, List.mapM_append, List.mapM_cons, List.mapM_cons, hsame]
    exact ⟨_, h.withMembers hcount hedited, ClassFile.shownLines_withMembers (.refl _)⟩

/-- A run: so it is after any number of edits. -/
theorem means_run (hedits : Relation.ReflTransGen HiddenEdit f g) (h : f.Means expected c) :
    ∃ d, g.Means expected d ∧ d.shownLines.Perm c.shownLines := by
  induction hedits with
  | refl => exact ⟨c, h, .refl _⟩
  | tail _ hedit ih =>
    obtain ⟨d, hd, hperm⟩ := ih
    obtain ⟨e, he, hnext⟩ := hedit.means hd
    exact ⟨e, he, hnext.trans hperm⟩

end HiddenEdit

namespace Analysis

/-- A class file that loads is made up of parts. However these are edited in ways that are
hidden, the result is loaded, too, and adds to any profile what the first one adds. -/
theorem toList_addTo_of_hiddenEdits {expected : Option ClassId} {bytes : List UInt8}
    {before after : Analysis} (hexact : ClassFrame.HasExactPool bytes)
    (hload : (load expected bytes).run before = .ok () after) :
    (∃ (f : ClassFrame) (trailing : List UInt8), bytes = f.bytes ++ trailing) ∧
      ∀ (f : ClassFrame) (trailing : List UInt8), bytes = f.bytes ++ trailing →
        ∀ g, Relation.ReflTransGen HiddenEdit f g → ∀ place, ∃ edited : Analysis,
          (load expected (g.bytes ++ trailing)).run place = .ok () edited ∧ ∀ p : Profile,
            (edited.addTo p).publicLines.toList = (after.addTo p).publicLines.toList ∧
              (edited.addTo p).packageLines.toList = (after.addTo p).packageLines.toList := by
  obtain ⟨c, hdecode, rfl⟩ := load_eq_ok_iff.1 hload
  constructor
  · exact ClassFrame.exists_of_decode hexact hdecode
  · intro f trailing hbytes g hedits place
    rw [hbytes, ClassFrame.decode_eq_ok_iff] at hdecode
    obtain ⟨d, hd, hperm⟩ := HiddenEdit.means_run hedits hdecode
    refine ⟨⟨some d⟩, load_eq_ok_iff.2 ⟨d, ?_, rfl⟩, fun p => ?_⟩
    · exact (ClassFrame.decode_eq_ok_iff trailing).2 hd
    · exact Profile.toList_addTo_of_perm hperm p

/-- A public class `A` with a public method `m`. -/
def openClass : ClassFrame where
  minorVersion := 0
  majorVersion := 52
  constants := ⟨[⟨.classInfo 2, _, rfl⟩, ⟨.text "A", _, [0x41], by decide, by decide, rfl⟩,
    ⟨.text "m", _, [0x6D], by decide, by decide, rfl⟩,
    ⟨.text "()V", _, [0x28, 0x29, 0x56], by decide, by decide, rfl⟩]⟩
  flags := 0x0021
  id := 1
  superclass := 0
  interfaces := []
  fields := []
  methods := [⟨0x0001, 3, 4, [], by decide⟩]
  attributes := []
  constants_lt := by decide
  interfaces_lt := by decide
  fields_lt := by decide
  methods_lt := by decide
  attributes_lt := by decide

/-- The same class with a private field `y`, and with an attribute of that name at the method. -/
def openClassEdited : ClassFrame :=
  { openClass with
    constants := openClass.constants.append
      [⟨.text "y", _, [0x79], by decide, by decide, rfl⟩,
        ⟨.text "I", _, [0x49], by decide, by decide, rfl⟩]
    fields := [⟨0x0002, 5, 6, [], by decide⟩]
    methods := [⟨0x0001, 3, 4, [⟨5, [1, 2, 3], by decide⟩], by decide⟩]
    constants_lt := by decide
    fields_lt := by decide
    methods_lt := by decide }

theorem openClass_means : openClass.Means none
    { minorVersion := 0
      majorVersion := 52
      pool := openClass.pool
      flags := 0x0021
      id := .ofName (.ofText "A")
      superclass := none
      interfaces := []
      fields := []
      methods := [{
        kind := .method
        container := .ofName (.ofText "A")
        flags := 0x0001
        name := "m"
        erasedDescriptor := "()V" }]
      attributes := {} } where
  isResolvable := by
    unfold PoolLayout.IsResolvable
    simp only [openClass, WrittenPool.layout, List.map_cons, List.map_nil, List.forall_mem_cons]
    decide
  pool_eq := rfl
  minorVersion_eq := rfl
  majorVersion_eq := rfl
  flags_eq := rfl
  id_eq := rfl
  isExpected := rfl
  superclass_eq := rfl
  interfaces_eq := rfl
  members_eq kind := by cases kind <;> rfl
  attributes_eq := rfl

theorem hiddenEdits_openClass : Relation.ReflTransGen HiddenEdit openClass openClassEdited := by
  have hconstants := HiddenEdit.appendConstants (f := openClass)
    [⟨.text "y", _, [0x79], by decide, by decide, rfl⟩,
      ⟨.text "I", _, [0x49], by decide, by decide, rfl⟩] (by decide)
    (List.forall_mem_cons.2 ⟨fun _ => rfl, List.forall_mem_singleton.2 fun _ => rfl⟩)
  have hfield := HiddenEdit.insertMember (f := { openClass with
      constants := openClassEdited.constants, constants_lt := openClassEdited.constants_lt })
    .field [] [] ⟨0x0002, 5, 6, [], by decide⟩ (.ofName (.ofText "A"))
    { kind := .field
      container := .ofName (.ofText "A")
      flags := 0x0002
      name := "y"
      erasedDescriptor := "I" } (by decide) rfl rfl (MemberFrame.decodes_iff.2 rfl)
    (.inl (by decide))
  have hattribute := HiddenEdit.insertMemberAttribute (f := { openClassEdited with
      methods := openClass.methods, methods_lt := openClass.methods_lt })
    .method [] [] ⟨0x0001, 3, 4, [], by decide⟩ [] [] ⟨5, [1, 2, 3], by decide⟩ (by decide)
    (by decide) rfl rfl ⟨"y", rfl, by decide⟩
  exact ((Relation.ReflTransGen.single hconstants).tail hfield).tail hattribute

theorem toList_addTo_of_hiddenEdits_openClass :
    ClassFrame.HasExactPool openClass.bytes ∧
      Relation.ReflTransGen HiddenEdit openClass openClassEdited ∧
      ∃ opened : Analysis, (load none openClass.bytes).run {} = .ok () opened ∧
        ∀ place, ∃ edited : Analysis,
          (load none (openClassEdited.bytes ++ [])).run place = .ok () edited ∧ ∀ p : Profile,
            (edited.addTo p).publicLines.toList = (opened.addTo p).publicLines.toList ∧
              (edited.addTo p).packageLines.toList = (opened.addTo p).packageLines.toList := by
  have hexact : ClassFrame.HasExactPool openClass.bytes :=
    ⟨[0xCA, 0xFE, 0xBA, 0xBE, 0, 0, 0, 52], openClass.declaration, openClass.constants, rfl,
      openClass.constants_lt, rfl⟩
  have hdecode := (ClassFrame.decode_eq_ok_iff []).2 openClass_means
  rw [List.append_nil] at hdecode
  have hload : (load none openClass.bytes).run {} = .ok () _ :=
    load_eq_ok_iff.2 ⟨_, hdecode, rfl⟩
  have hedits := hiddenEdits_openClass
  refine ⟨hexact, hedits, _, hload, ?_⟩
  exact (toList_addTo_of_hiddenEdits hexact hload).2 openClass [] (List.append_nil _).symm
    openClassEdited hedits

end Analysis

end ClassAtlas
