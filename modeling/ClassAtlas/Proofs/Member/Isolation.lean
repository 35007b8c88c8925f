import ClassAtlas.Proofs.Annotations.Grammar
import ClassAtlas.Proofs.ClassFile.Frame
import ClassAtlas.Proofs.Member.Layout

/-!
# Attributes of members, one by one

The body of an attribute is decoded alone, by the grammar that the attribute's name picks. So a
field or a method does not depend on the bytes that are left over in a body, nor on those behind
the member; and a body that ends too early is never made up for by the bytes behind it.
-/

namespace ClassAtlas

variable (pool : ConstantPool)

/-! ### What is read of a body -/

/-- What is read of an attribute of a field or a method (JVMS 4.7). Nothing is read of the body of
a marker, and nothing of the body of an attribute of another name. -/
def Grammar.memberBody (name : String) : Language UInt8 :=
  match name with
  | "ConstantValue" | "Signature" => slot
  | "Exceptions" => table slot
  | "RuntimeVisibleAnnotations" | "RuntimeInvisibleAnnotations" => table (annotationOf value)
  | "RuntimeVisibleParameterAnnotations" | "RuntimeInvisibleParameterAnnotations" =>
    tagged fun parameters => table (annotationOf value) ^ parameters.toNat
  | "RuntimeVisibleTypeAnnotations" | "RuntimeInvisibleTypeAnnotations" => table typed
  | "AnnotationDefault" => value
  | _ => 1

theorem Grammar.memberBody_of_notMem {name : String} (h : name ∉ Member.attributeNames) :
    memberBody name = 1 := by
  unfold memberBody
  split <;> first
    | rfl
    | exact absurd h (by decide)

theorem Member.follows_readAttribute (name : String) (m : Member) :
    Follows (m.readAttribute pool name) (Grammar.memberBody name) := by
  have hannotations := (Annotations.follows_read pool).table
  unfold readAttribute
  split
  · exact pool.follows_readConstant.last _
  · exact .pure _
  · exact .pure _
  · exact pool.follows_readText.last _
  · exact pool.follows_readClass.table.last _
  · exact hannotations.last _
  · exact hannotations.last _
  · exact .tagged fun parameters => (hannotations.replicate parameters.toNat).last _
  · exact .tagged fun parameters => (hannotations.replicate parameters.toNat).last _
  · exact ((Annotations.follows_readTyped? pool).table.last _).last _
  · exact ((Annotations.follows_readTyped? pool).table.last _).last _
  · exact (Annotations.follows_readValue pool).last _
  · unfold Grammar.memberBody
    split <;> first
      | contradiction
      | exact .pure _

/-! ### Attributes -/

namespace AttributeFrame

/-- The body starts with what is read of an attribute of this name. -/
def StartsWith (a : AttributeFrame) (front : List UInt8) : Prop :=
  ∃ name, pool.textAt a.name = .ok name ∧ front ∈ Grammar.memberBody name ∧ front <+: a.body

/-- The attributes have one name, and their bodies have one length and are the same as far as they
are read. -/
structure ReadsLike (a b : AttributeFrame) : Prop where
  name_eq : b.name = a.name
  length_eq : b.body.length = a.body.length
  read_eq : ∃ front, a.StartsWith pool front ∧ b.StartsWith pool front

/-- The body is only a front part of what is read of an attribute of this name. -/
def IsCutShort (a : AttributeFrame) : Prop :=
  ∃ name more, pool.textAt a.name = .ok name ∧ more ≠ [] ∧
    a.body ++ more ∈ Grammar.memberBody name

def addTo (m : Member) (a : AttributeFrame) : Except Error Member :=
  a.outcome pool fun name => m.readAttribute pool name

variable {pool} {a b : AttributeFrame} {m next : Member}

theorem addTo_eq_alone {name : String} (hname : pool.textAt a.name = .ok name) (m : Member) :
    a.addTo pool m = (m.readAttribute pool name).alone a.body := by
  rw [addTo, outcome, hname]
  rfl

theorem exists_startsWith (h : a.addTo pool m = .ok next) : ∃ front, a.StartsWith pool front := by
  obtain ⟨name, hname, hbody⟩ := bind_eq_ok_iff.1 h
  obtain ⟨front, hfront, hprefix, -⟩ := (m.follows_readAttribute pool name).exists_front hbody
  exact ⟨front, name, hname, hfront, hprefix⟩

theorem ReadsLike.addTo_eq (hab : a.ReadsLike pool b) (h : a.addTo pool m = .ok next) :
    b.addTo pool m = .ok next := by
  obtain ⟨front, ⟨name, hname, hfront, ha⟩, -, -, -, hb⟩ := hab.read_eq
  rw [addTo_eq_alone hname] at h
  rw [← hab.name_eq] at hname
  rw [addTo_eq_alone hname]
  exact (m.follows_readAttribute pool name).alone_eq_of_front h hfront ha hb

theorem readsLike_of_notMem {name : String} (hname : pool.textAt a.name = .ok name)
    (hunknown : name ∉ Member.attributeNames) (hsame : b.name = a.name)
    (hlength : b.body.length = a.body.length) : a.ReadsLike pool b where
  name_eq := hsame
  length_eq := hlength
  read_eq := by
    have hnothing : [] ∈ Grammar.memberBody name := by
      rw [Grammar.memberBody_of_notMem hunknown]
      exact Language.nil_mem_one
    refine ⟨[], ⟨name, hname, hnothing, List.nil_prefix⟩, name, ?_, hnothing, List.nil_prefix⟩
    rw [hsame, hname]

theorem IsCutShort.addTo_ne_ok (ha : a.IsCutShort pool) : a.addTo pool m ≠ .ok next := by
  obtain ⟨name, more, hname, hmore, hwhole⟩ := ha
  rw [addTo_eq_alone hname]
  exact (m.follows_readAttribute pool name).alone_ne_ok hmore hwhole

end AttributeFrame

/-! ### Members -/

namespace MemberFrame

def extent (f : MemberFrame) : Nat :=
  8 + (f.attributes.map fun a => 6 + a.body.length).sum

/-- The members are the same but for what is not read of the attributes. -/
structure ReadsLike (f g : MemberFrame) : Prop where
  flags_eq : g.flags = f.flags
  name_eq : g.name = f.name
  descriptor_eq : g.descriptor = f.descriptor
  attributes : List.Forall₂ (AttributeFrame.ReadsLike pool) f.attributes g.attributes

variable {pool} {kind : MemberKind} {container : ClassId} {f g : MemberFrame} {m : Member}

theorem length_bytes (f : MemberFrame) : f.bytes.length = f.extent := by
  have hattribute (a : AttributeFrame) : a.bytes.length = 6 + a.body.length := by
    simp only [AttributeFrame.bytes, bodyBytes, u2Bytes, u4Bytes, List.length_append,
      length_bytesOf]
    omega
  simp only [bytes, tableBytes, u2Bytes, List.length_append, length_bytesOf, List.length_flatMap,
    hattribute, extent]
  omega

theorem ReadsLike.extent_eq (h : f.ReadsLike pool g) : g.extent = f.extent := by
  have hlengths : List.Forall₂ (fun a b : AttributeFrame => 6 + a.body.length = 6 + b.body.length)
      f.attributes g.attributes :=
    h.attributes.imp fun _ _ hab => by rw [hab.length_eq]
  rw [← List.forall₂_map_right_iff, ← List.forall₂_map_left_iff, List.forall₂_eq_eq_eq] at hlengths
  rw [extent, extent, hlengths]

theorem outcome_eq_ok_iff : f.outcome kind container pool = .ok m ↔
    ∃ name, pool.textAt f.name = .ok name ∧ ∃ descriptor,
      pool.textAt f.descriptor = .ok descriptor ∧
        f.attributes.foldlM (AttributeFrame.addTo pool)
          { kind, container, flags := f.flags, name, erasedDescriptor := descriptor } = .ok m := by
  simp only [outcome, bind_eq_ok_iff]
  rfl

theorem ReadsLike.outcome_eq (h : f.ReadsLike pool g) (hf : f.outcome kind container pool = .ok m) :
    g.outcome kind container pool = .ok m := by
  obtain ⟨name, hname, descriptor, hdescriptor, hattributes⟩ := outcome_eq_ok_iff.1 hf
  obtain ⟨_, hsame, rfl⟩ := foldlM_related (R := Eq) (g := AttributeFrame.addTo pool)
    (fun _ _ _ _ next hs hab hnext => ⟨next, hs ▸ hab.addTo_eq hnext, rfl⟩) h.attributes rfl
    hattributes
  rw [← h.name_eq] at hname
  rw [← h.descriptor_eq] at hdescriptor
  rw [← h.flags_eq] at hsame
  exact outcome_eq_ok_iff.2 ⟨name, hname, descriptor, hdescriptor, hsame⟩

/-- Each attribute of a member that is read has been read. -/
theorem exists_addTo_of_outcome (hf : f.outcome kind container pool = .ok m) :
    ∀ a ∈ f.attributes, ∃ before behind : Member, a.addTo pool before = .ok behind := by
  obtain ⟨_, _, _, _, hattributes⟩ := outcome_eq_ok_iff.1 hf
  exact foldlM_steps hattributes

theorem read_eq_ok_iff {offset : Nat} {behind : List UInt8} {stop : Cursor} :
    Member.read kind container pool ⟨offset, f.bytes ++ behind⟩ = .ok m stop ↔
      f.outcome kind container pool = .ok m ∧ stop = ⟨offset + f.extent, behind⟩ := by
  rw [(f.yields_read kind container pool).eq_ok_iff, f.length_bytes]

end MemberFrame

/-- Where a member is read, the reader moves on by eight bytes and, for each attribute, by six bytes
and the length that is declared. Each body starts with all that is read of it, and the member is the
same whatever else fills the bodies and stands behind the member. Where the bytes of a body are
only a front part of what is read of it, the reading fails, whatever stands behind the body. -/
theorem Member.read_isolated (kind : MemberKind) (container : ClassId) :
    (∀ start m stop, Member.read kind container pool start = .ok m stop →
      (∃ f : MemberFrame, start.rest = f.bytes ++ stop.rest) ∧
      ∀ (f : MemberFrame) behind, start.rest = f.bytes ++ behind →
        stop = ⟨start.offset + (8 + (f.attributes.map fun a => 6 + a.body.length).sum), behind⟩ ∧
        (∀ a ∈ f.attributes, ∃ front, a.StartsWith pool front) ∧
        ∀ g, f.ReadsLike pool g → ∀ other,
          Member.read kind container pool ⟨start.offset, g.bytes ++ other⟩ =
            .ok m ⟨stop.offset, other⟩) ∧
    ∀ f : MemberFrame, (∃ a ∈ f.attributes, a.IsCutShort pool) →
      ∃ e, ∀ offset behind, ∃ c,
        Member.read kind container pool ⟨offset, f.bytes ++ behind⟩ = .error e c := by
  constructor
  · intro start m stop hread
    refine ⟨?_, fun f behind hstart => ?_⟩
    · obtain ⟨_, hused, f, rfl⟩ := MemberFrame.takes_read kind container pool start m stop hread
      exact ⟨f, hused⟩
    have hcursor : start = ⟨start.offset, f.bytes ++ behind⟩ := by rw [← hstart]
    rw [hcursor] at hread
    obtain ⟨houtcome, rfl⟩ := MemberFrame.read_eq_ok_iff.1 hread
    refine ⟨rfl, fun a ha => ?_, fun g hg other => ?_⟩
    · obtain ⟨_, _, hadded⟩ := MemberFrame.exists_addTo_of_outcome houtcome a ha
      exact AttributeFrame.exists_startsWith hadded
    · exact MemberFrame.read_eq_ok_iff.2 ⟨hg.outcome_eq houtcome, by rw [hg.extent_eq]⟩
  · rintro f ⟨a, ha, hcut⟩
    cases houtcome : f.outcome kind container pool with
    | ok m =>
      obtain ⟨_, _, hadded⟩ := MemberFrame.exists_addTo_of_outcome houtcome a ha
      exact absurd hadded hcut.addTo_ne_ok
    | error e =>
      have hyields := f.yields_read kind container pool
      rw [houtcome] at hyields
      exact ⟨e, hyields⟩

/-- The constants of a field `f` with a signature and an attribute `Local`. -/
def boxedConstants : PoolLayout where
  items := [.text "f", .text "LBox;", .text "Signature", .text "LBox<LA;>;", .text "Local"]

/-- The field, with the signature and one byte more in the body of the first attribute. -/
def boxedField : MemberFrame :=
  ⟨0x0002, 1, 2, [⟨3, [0, 4, 0xFF], by decide⟩, ⟨5, [1, 1], by decide⟩], by decide⟩

def boxedFieldEdited : MemberFrame :=
  ⟨0x0002, 1, 2, [⟨3, [0, 4, 0x07], by decide⟩, ⟨5, [9, 9], by decide⟩], by decide⟩

/-- The field with the first byte of the signature's slot number only. -/
def boxedFieldCut : MemberFrame :=
  ⟨0x0002, 1, 2, [⟨3, [0], by decide⟩], by decide⟩

theorem readsLike_boxedField : boxedField.ReadsLike boxedConstants.pool boxedFieldEdited where
  flags_eq := rfl
  name_eq := rfl
  descriptor_eq := rfl
  attributes := by
    have hsignature (last : UInt8) : (⟨3, [0, 4, last], by simp⟩ : AttributeFrame).StartsWith
        boxedConstants.pool [0, 4] :=
      ⟨"Signature", rfl, rfl, [last], rfl⟩
    refine .cons ⟨rfl, rfl, [0, 4], hsignature 0xFF, hsignature 0x07⟩ (.cons ?_ .nil)
    have hname : boxedConstants.pool.textAt 5 = .ok "Local" := rfl
    exact AttributeFrame.readsLike_of_notMem hname (by decide) rfl rfl

theorem isCutShort_boxedFieldCut :
    ∃ a ∈ boxedFieldCut.attributes, a.IsCutShort boxedConstants.pool :=
  ⟨⟨3, [0], by decide⟩, by simp [boxedFieldCut], "Signature", [4], rfl, by decide, rfl⟩

theorem Member.read_isolated_boxedField :
    ∃ m : Member, m.descriptor = "LBox<LA;>;" ∧
      Member.read .field (.ofName (.ofText "A")) boxedConstants.pool
        ⟨10, boxedField.bytes ++ [0xCA]⟩ = .ok m ⟨35, [0xCA]⟩ ∧
      Member.read .field (.ofName (.ofText "A")) boxedConstants.pool
        ⟨10, boxedFieldEdited.bytes ++ [1, 2]⟩ = .ok m ⟨35, [1, 2]⟩ ∧
      ∃ e, ∀ offset behind, ∃ c, Member.read .field (.ofName (.ofText "A")) boxedConstants.pool
        ⟨offset, boxedFieldCut.bytes ++ behind⟩ = .error e c := by
  have hread : Member.read .field (.ofName (.ofText "A")) boxedConstants.pool
      ⟨10, boxedField.bytes ++ [0xCA]⟩ = .ok _ ⟨35, [0xCA]⟩ :=
    MemberFrame.read_eq_ok_iff.2 ⟨rfl, rfl⟩
  have h := Member.read_isolated boxedConstants.pool .field (.ofName (.ofText "A"))
  obtain ⟨-, -, hsame⟩ := (h.1 _ _ _ hread).2 boxedField [0xCA] rfl
  exact ⟨_, rfl, hread, hsame boxedFieldEdited readsLike_boxedField [1, 2],
    h.2 boxedFieldCut isCutShort_boxedFieldCut⟩

end ClassAtlas
