import Mathlib.Data.List.Forall2
import ClassAtlas.Proofs.ConstantPool.Resolution
import ClassAtlas.Proofs.Decoder.Recovery
import ClassAtlas.Proofs.Profile.Contents

/-!
# Frames of class files

A class file cut into its parts: slot numbers and flags, tables of members and of attributes,
and the bodies of attributes as they are. `ClassFrame.Means` says what class a frame stands
for, part by part and without any bytes but those inside attributes, and decoding the bytes of
a frame comes to exactly that. Nor is anything else decoded: a class file whose pool is counted
exactly is a frame with some bytes behind it.
-/

namespace ClassAtlas

variable {α β σ τ : Type}

/-! ### Computations that can fail -/

theorem bind_eq_ok_iff {x : Except Error α} {f : α → Except Error β} {b : β} :
    x >>= f = .ok b ↔ ∃ a, x = .ok a ∧ f a = .ok b := by
  cases x with
  | ok a => simp [bind, Except.bind]
  | error e => simp [bind, Except.bind]

theorem mapM_eq_ok_iff {f : α → Except Error β} {l : List α} {bs : List β} :
    l.mapM f = .ok bs ↔ List.Forall₂ (fun a b => f a = .ok b) l bs := by
  induction l generalizing bs with
  | nil => simp [pure, Except.pure, eq_comm]
  | cons a l ih =>
    simp only [List.mapM_cons, bind_eq_ok_iff, ih, List.forall₂_cons_left_iff]
    constructor
    · rintro ⟨b, hb, rest, hrest, hbs⟩
      exact ⟨b, rest, hb, hrest, (Except.ok.inj hbs).symm⟩
    · rintro ⟨b, rest, hb, hrest, rfl⟩
      exact ⟨b, hb, rest, hrest, rfl⟩

theorem exists_mapM_iff {f : α → Except Error β} {l : List α} :
    (∃ bs, l.mapM f = .ok bs) ↔ ∀ a ∈ l, ∃ b, f a = .ok b := by
  induction l with
  | nil => simp [pure, Except.pure]
  | cons a l ih =>
    rw [List.forall_mem_cons, ← ih]
    simp only [mapM_eq_ok_iff, List.forall₂_cons_left_iff]
    constructor
    · rintro ⟨_, b, bs, hb, hbs, -⟩
      exact ⟨⟨b, hb⟩, bs, hbs⟩
    · rintro ⟨⟨b, hb⟩, bs, hbs⟩
      exact ⟨b :: bs, b, bs, hb, hbs, rfl⟩

theorem mem_of_mapM {f : α → Except Error β} {l : List α} {bs : List β}
    (h : l.mapM f = .ok bs) (b : β) : b ∈ bs ↔ ∃ a ∈ l, f a = .ok b := by
  rw [mapM_eq_ok_iff] at h
  induction h with
  | nil => simp
  | @cons a first l bs hfirst _ ih =>
    rw [List.mem_cons, ih]
    simp [hfirst, eq_comm]

theorem foldlM_related {R : σ → τ → Prop} {Q : α → β → Prop} {f : σ → α → Except Error σ}
    {g : τ → β → Except Error τ}
    (hstep : ∀ s t a b next, R s t → Q a b → f s a = .ok next → ∃ other, g t b = .ok other ∧
      R next other)
    {l : List α} {m : List β} (hlm : List.Forall₂ Q l m) {s last : σ} {t : τ} (hst : R s t)
    (hf : l.foldlM f s = .ok last) : ∃ other, m.foldlM g t = .ok other ∧ R last other := by
  induction hlm generalizing s t with
  | nil => exact ⟨t, rfl, Except.ok.inj hf ▸ hst⟩
  | cons hab hrest ih =>
    rw [List.foldlM_cons, bind_eq_ok_iff] at hf
    obtain ⟨next, hnext, hlast⟩ := hf
    obtain ⟨other, hother, hrelated⟩ := hstep _ _ _ _ next hst hab hnext
    rw [List.foldlM_cons, hother]
    exact ih hrelated hlast

theorem foldlM_keeps {P : σ → Prop} {f : σ → α → Except Error σ} {items : List α}
    (hstep : ∀ a ∈ items, ∀ s next, P s → f s a = .ok next → P next) {s last : σ} (hs : P s)
    (h : items.foldlM f s = .ok last) : P last := by
  induction items generalizing s with
  | nil => exact Except.ok.inj h ▸ hs
  | cons a items ih =>
    obtain ⟨next, hnext, hrest⟩ := bind_eq_ok_iff.1 h
    obtain ⟨hfirst, hothers⟩ := List.forall_mem_cons.1 hstep
    exact ih hothers (hfirst s next hs hnext) hrest

theorem foldlM_steps {f : σ → α → Except Error σ} {items : List α} {s last : σ}
    (h : items.foldlM f s = .ok last) : ∀ a ∈ items, ∃ s next, f s a = .ok next := by
  induction items generalizing s with
  | nil => simp
  | cons a items ih =>
    obtain ⟨next, hnext, hrest⟩ := bind_eq_ok_iff.1 h
    exact List.forall_mem_cons.2 ⟨⟨s, next, hnext⟩, ih hrest⟩

/-! ### Attributes and members -/

/-- The slot of an attribute's name, and its body. -/
structure AttributeFrame where
  name : UInt16
  body : List UInt8
  length_lt : body.length < 4294967296

namespace AttributeFrame

def bytes (a : AttributeFrame) : List UInt8 :=
  u2Bytes a.name ++ bodyBytes a.body

/-- What comes of an attribute whose body is decoded in a way that its name decides. -/
def outcome (pool : ConstantPool) (decoder : String → Decoder σ) (a : AttributeFrame) :
    Except Error σ := do
  let name ← pool.textAt a.name
  (decoder name).alone a.body

end AttributeFrame

theorem ConstantPool.yields_readText (pool : ConstantPool) (index : UInt16) :
    Yields pool.readText (u2Bytes index) (pool.textAt index) :=
  .slot pool.textAt index

theorem ConstantPool.yields_readClass (pool : ConstantPool) (index : UInt16) :
    Yields pool.readClass (u2Bytes index) (pool.classAt index) :=
  .slot pool.classAt index

theorem AttributeFrame.yields (pool : ConstantPool) (decoder : String → Decoder σ)
    (a : AttributeFrame) :
    Yields (do
      let name ← pool.readText
      let length ← Decoder.u4
      Decoder.within length.toNat (decoder name)) a.bytes (a.outcome pool decoder) := by
  refine (pool.yields_readText a.name).bind fun name _ => Yields.after (Decodes.u4 _) ?_
  rw [UInt32.toNat_ofNat_of_lt' a.length_lt]
  exact .within (decoder name) a.body

/-- The flags of a member, the slots of its name and its descriptor, and its attributes. -/
structure MemberFrame where
  flags : AccessFlags
  name : UInt16
  descriptor : UInt16
  attributes : List AttributeFrame
  length_lt : attributes.length < 65536

namespace MemberFrame

def bytes (f : MemberFrame) : List UInt8 :=
  u2Bytes f.flags ++ (u2Bytes f.name ++ (u2Bytes f.descriptor ++
    tableBytes AttributeFrame.bytes f.attributes))

def outcome (kind : MemberKind) (container : ClassId) (pool : ConstantPool) (f : MemberFrame) :
    Except Error Member := do
  let name ← pool.textAt f.name
  let descriptor ← pool.textAt f.descriptor
  f.attributes.foldlM
    (fun m a => a.outcome pool fun name => Member.readAttribute pool name m)
    { kind, container, flags := f.flags, name, erasedDescriptor := descriptor }

theorem yields_read (kind : MemberKind) (container : ClassId) (pool : ConstantPool)
    (f : MemberFrame) :
    Yields (Member.read kind container pool) f.bytes (f.outcome kind container pool) := by
  refine Yields.after (Decodes.u2 f.flags) ?_
  refine (pool.yields_readText f.name).bind fun name _ => ?_
  refine (pool.yields_readText f.descriptor).bind fun descriptor _ => ?_
  exact .table f.attributes f.length_lt (fun a _ m => a.yields pool _) _

end MemberFrame

/-! ### Class files -/

/-- The parts of a class file, each table with a length that its count can hold. -/
structure ClassFrame where
  minorVersion : UInt16
  majorVersion : UInt16
  constants : WrittenPool
  flags : AccessFlags
  id : UInt16
  superclass : UInt16
  interfaces : List UInt16
  fields : List MemberFrame
  methods : List MemberFrame
  attributes : List AttributeFrame
  constants_lt : constants.layout.table.length < 65536
  interfaces_lt : interfaces.length < 65536
  fields_lt : fields.length < 65536
  methods_lt : methods.length < 65536
  attributes_lt : attributes.length < 65536

/-- The class at a slot, where slot zero stands for none. -/
def ConstantPool.optionalClassAt (pool : ConstantPool) (index : UInt16) :
    Except Error (Option ClassId) :=
  if index = 0 then return none else return some (← pool.classAt index)

def checkedIdentity (expected : Option ClassId) (found : ClassId) : Except Error Unit :=
  match expected with
  | none => .ok ()
  | some id => if id == found then .ok () else .error (.identityMismatch id found)

namespace WrittenPool

/-- The pool that the entries make up where each has what it refers to. -/
theorem outcome_eq_ok_iff {p : WrittenPool} {pool : ConstantPool} :
    p.outcome = .ok pool ↔ p.layout.IsResolvable ∧ pool = p.layout.pool := by
  rw [outcome, ← p.layout.fault?_eq_none_iff]
  cases p.layout.fault? with
  | none => simp [eq_comm]
  | some e => simp

end WrittenPool

namespace ClassFrame

def declaration (f : ClassFrame) : List UInt8 :=
  u2Bytes f.flags ++ (u2Bytes f.id ++ (u2Bytes f.superclass ++
    (tableBytes u2Bytes f.interfaces ++ (tableBytes MemberFrame.bytes f.fields ++
      (tableBytes MemberFrame.bytes f.methods ++ tableBytes AttributeFrame.bytes f.attributes)))))

def bytes (f : ClassFrame) : List UInt8 :=
  u4Bytes ClassFile.magic ++ (u2Bytes f.minorVersion ++ (u2Bytes f.majorVersion ++
    (f.constants.bytes ++ f.declaration)))

def said (pool : ConstantPool) (attributes : List AttributeFrame) : Except Error ClassAttributes :=
  attributes.foldlM (fun said a => a.outcome pool fun name => said.readBody pool name) {}

/-- The class file that the frame stands for, if it stands for the class expected. -/
def outcome (expected : Option ClassId) (f : ClassFrame) : Except Error ClassFile := do
  let pool ← f.constants.outcome
  let id ← pool.classAt f.id
  checkedIdentity expected id
  let superclass ← pool.optionalClassAt f.superclass
  let interfaces ← f.interfaces.mapM pool.classAt
  let fields ← f.fields.mapM (MemberFrame.outcome .field id pool)
  let methods ← f.methods.mapM (MemberFrame.outcome .method id pool)
  let attributes ← said pool f.attributes
  return { minorVersion := f.minorVersion, majorVersion := f.majorVersion, pool, flags := f.flags,
           id, superclass, interfaces, fields, methods, attributes }

def pool (f : ClassFrame) : ConstantPool :=
  f.constants.layout.pool

def members (f : ClassFrame) : MemberKind → List MemberFrame
  | .field => f.fields
  | .method => f.methods

/-- The class file has, part by part, what the frame says. -/
structure Means (f : ClassFrame) (expected : Option ClassId) (c : ClassFile) : Prop where
  isResolvable : f.constants.layout.IsResolvable
  pool_eq : c.pool = f.pool
  minorVersion_eq : c.minorVersion = f.minorVersion
  majorVersion_eq : c.majorVersion = f.majorVersion
  flags_eq : c.flags = f.flags
  id_eq : f.pool.classAt f.id = .ok c.id
  isExpected : checkedIdentity expected c.id = .ok ()
  superclass_eq : f.pool.optionalClassAt f.superclass = .ok c.superclass
  interfaces_eq : f.interfaces.mapM f.pool.classAt = .ok c.interfaces
  members_eq (kind : MemberKind) :
    (f.members kind).mapM (MemberFrame.outcome kind c.id f.pool) = .ok (c.membersOf kind)
  attributes_eq : said f.pool f.attributes = .ok c.attributes

theorem outcome_eq_ok_iff {expected : Option ClassId} {f : ClassFrame} {c : ClassFile} :
    f.outcome expected = .ok c ↔ f.Means expected c := by
  simp only [outcome, bind_eq_ok_iff, WrittenPool.outcome_eq_ok_iff]
  constructor
  · rintro ⟨pool, ⟨hresolvable, rfl⟩, id, hid, _, hidentity, superclass, hsuperclass, interfaces,
      hinterfaces, fields, hfields, methods, hmethods, attributes, hattributes, hc⟩
    obtain rfl := Except.ok.inj hc
    exact {
      isResolvable := hresolvable
      pool_eq := rfl
      minorVersion_eq := rfl
      majorVersion_eq := rfl
      flags_eq := rfl
      id_eq := hid
      isExpected := hidentity
      superclass_eq := hsuperclass
      interfaces_eq := hinterfaces
      members_eq := fun kind => by
        cases kind with
        | field => exact hfields
        | method => exact hmethods
      attributes_eq := hattributes }
  · intro h
    refine ⟨f.pool, ⟨h.isResolvable, rfl⟩, c.id, h.id_eq, (), h.isExpected, c.superclass,
      h.superclass_eq, c.interfaces, h.interfaces_eq, c.fields, h.members_eq .field, c.methods,
      h.members_eq .method, c.attributes, h.attributes_eq, ?_⟩
    rw [← h.pool_eq, ← h.minorVersion_eq, ← h.majorVersion_eq, ← h.flags_eq]
    rfl

theorem yields_readOptionalClass (pool : ConstantPool) (index : UInt16) :
    Yields (ClassFile.readOptionalClass pool) (u2Bytes index) (pool.optionalClassAt index) := by
  have hclass (i : UInt16) : Yields (if i = 0 then pure none else do
      return some (← Decoder.ofExcept (pool.classAt i))) [] (pool.optionalClassAt i) := by
    unfold ConstantPool.optionalClassAt
    split
    · exact .pure none
    · exact (Yields.ofExcept _).last fun _ _ => .pure _
  have h := (Decodes.u2 index).yields.last fun i _ => hclass i
  exact h

theorem yields_checkIdentity (expected : Option ClassId) (found : ClassId) :
    Yields (ClassFile.checkIdentity expected found) [] (checkedIdentity expected found) := by
  cases expected with
  | none => exact .pure ()
  | some id =>
    unfold ClassFile.checkIdentity checkedIdentity
    dsimp only
    split
    · exact .pure ()
    · exact .ofExcept (.error _)

theorem yields_said (pool : ConstantPool) (attributes : List AttributeFrame)
    (h : attributes.length < 65536) :
    Yields (ClassAttributes.read pool) (tableBytes AttributeFrame.bytes attributes)
      (said pool attributes) := by
  have hnext (a : AttributeFrame) (said : ClassAttributes) :
      Yields (said.readNext pool) a.bytes (a.outcome pool fun name => said.readBody pool name) :=
    a.yields pool _
  exact .table attributes h (fun a _ said => hnext a said) {}

theorem yields_read (expected : Option ClassId) (f : ClassFrame) :
    Yields (ClassFile.read expected) f.bytes (f.outcome expected) := by
  unfold ClassFile.read
  refine .after (Decodes.u4 ClassFile.magic) ?_
  rw [if_neg (by decide)]
  refine .after (Decodes.u2 f.minorVersion) (.after (Decodes.u2 f.majorVersion) ?_)
  refine (f.constants.yields_read f.constants_lt).bind fun pool _ => ?_
  refine .after (Decodes.u2 f.flags) ((pool.yields_readClass f.id).bind fun id _ => ?_)
  refine (yields_checkIdentity expected id).bind fun _ _ => ?_
  refine (yields_readOptionalClass pool f.superclass).bind fun superclass _ => ?_
  refine (Yields.counted f.interfaces f.interfaces_lt fun i _ => pool.yields_readClass i).bind
    fun interfaces _ => ?_
  refine (Yields.counted f.fields f.fields_lt fun m _ => m.yields_read .field id pool).bind
    fun fields _ => ?_
  refine (Yields.counted f.methods f.methods_lt fun m _ => m.yields_read .method id pool).bind
    fun methods _ => ?_
  exact (yields_said pool f.attributes f.attributes_lt).last fun _ _ => .pure _

theorem decode_eq_alone (expected : Option ClassId) (bytes : List UInt8) :
    ClassFile.decode expected bytes = (ClassFile.read expected).alone bytes := by
  unfold ClassFile.decode Decoder.alone
  cases (ClassFile.read expected).run (.start bytes) <;> rfl

/-- Decoding the bytes of a frame, whatever stands behind them, comes to what the frame means. -/
theorem decode_eq_ok_iff {expected : Option ClassId} {f : ClassFrame} {c : ClassFile}
    (trailing : List UInt8) :
    ClassFile.decode expected (f.bytes ++ trailing) = .ok c ↔ f.Means expected c := by
  have halone := (f.yields_read expected).alone_eq trailing
  rw [decode_eq_alone, halone, outcome_eq_ok_iff]

end ClassFrame

/-! ### Cutting class files into parts -/

theorem ConstantPool.takes_readText (pool : ConstantPool) :
    Takes pool.readText fun used _ => ∃ index, used = u2Bytes index :=
  .slot pool.textAt

theorem ConstantPool.takes_readClass (pool : ConstantPool) :
    Takes pool.readClass fun used _ => ∃ index, used = u2Bytes index :=
  .slot pool.classAt

theorem AttributeFrame.takes (pool : ConstantPool) (decoder : String → Decoder σ) :
    Takes (do
      let name ← pool.readText
      let length ← Decoder.u4
      Decoder.within length.toNat (decoder name))
      fun used _ => ∃ a : AttributeFrame, used = a.bytes := by
  refine pool.takes_readText.bind fun first name hfirst => ?_
  refine Takes.u4.bind fun second length hsecond => ?_
  refine (Takes.within length.toNat (decoder name)).mono fun body _ hbody => ?_
  obtain ⟨index, rfl⟩ := hfirst
  have hlength : UInt32.ofNat body.length = length := by
    rw [hbody, UInt32.ofNat_toNat]
  refine ⟨⟨index, body, by rw [hbody]; exact length.toNat_lt⟩, ?_⟩
  simp only [bytes, bodyBytes, hlength, hsecond]

theorem MemberFrame.takes_read (kind : MemberKind) (container : ClassId) (pool : ConstantPool) :
    Takes (Member.read kind container pool) fun used _ => ∃ f : MemberFrame, used = f.bytes := by
  have hattribute (m : Member) : Takes (m.readNextAttribute pool)
      fun used _ => ∃ a : AttributeFrame, used = a.bytes :=
    AttributeFrame.takes pool _
  refine Takes.u2.bind fun first flags hfirst => ?_
  refine pool.takes_readText.bind fun second name hsecond => ?_
  refine pool.takes_readText.bind fun third descriptor hthird => ?_
  refine (Takes.table hattribute _).mono fun more _ hmore => ?_
  obtain ⟨nameIndex, rfl⟩ := hsecond
  obtain ⟨descriptorIndex, rfl⟩ := hthird
  obtain ⟨attributes, hlength, rfl⟩ := hmore
  exact ⟨⟨flags, nameIndex, descriptorIndex, attributes, hlength⟩, by rw [hfirst, bytes]⟩

namespace ClassFrame

theorem takes_readOptionalClass (pool : ConstantPool) :
    Takes (ClassFile.readOptionalClass pool) fun used _ => ∃ index, used = u2Bytes index := by
  refine Takes.u2.bind fun used index hused => ?_
  split
  · refine (Takes.pure _).mono fun more _ hmore => ⟨index, ?_⟩
    rw [hused, hmore.1, List.append_nil]
  · refine ((Takes.ofExcept (pool.classAt index)).last some).mono fun more _ hmore => ⟨index, ?_⟩
    rw [hused, hmore, List.append_nil]

/-- The pool of a class file is counted exactly: behind the eight bytes of the header stand the
number of the slots and the entries that take these slots. -/
def HasExactPool (bytes : List UInt8) : Prop :=
  ∃ (header rest : List UInt8) (constants : WrittenPool), header.length = 8 ∧
    constants.layout.table.length < 65536 ∧ bytes = header ++ (constants.bytes ++ rest)

theorem takes_checkIdentity (expected : Option ClassId) (found : ClassId) :
    Takes (ClassFile.checkIdentity expected found) fun used _ => used = [] := by
  cases expected with
  | none => exact (Takes.pure ()).mono fun _ _ h => h.1
  | some id =>
    unfold ClassFile.checkIdentity
    dsimp only
    split
    · exact (Takes.pure ()).mono fun _ _ h => h.1
    · exact Takes.ofExcept (.error _)

theorem takes_declaration (expected : Option ClassId) (minorVersion majorVersion : UInt16)
    (pool : ConstantPool) {constants : WrittenPool}
    (hslots : constants.layout.table.length < 65536) :
    Takes (do
      let flags ← Decoder.u2
      let id ← pool.readClass
      ClassFile.checkIdentity expected id
      let superclass ← ClassFile.readOptionalClass pool
      let interfaces ← Decoder.counted pool.readClass
      let fields ← Decoder.counted (Member.read .field id pool)
      let methods ← Decoder.counted (Member.read .method id pool)
      let attributes ← ClassAttributes.read pool
      return ({ minorVersion, majorVersion, pool, flags, id, superclass, interfaces, fields,
                methods, attributes } : ClassFile))
      fun used _ => ∃ f : ClassFrame, f.minorVersion = minorVersion ∧
        f.majorVersion = majorVersion ∧ f.constants = constants ∧ used = f.declaration := by
  refine Takes.u2.bind fun used flags hflags => ?_
  refine pool.takes_readClass.bind fun used id hid => ?_
  refine (takes_checkIdentity expected id).bind fun used _ hnothing => ?_
  refine (takes_readOptionalClass pool).bind fun used _ hsuperclass => ?_
  refine pool.takes_readClass.counted.bind fun used _ hinterfaces => ?_
  refine (MemberFrame.takes_read .field id pool).counted.bind fun used _ hfields => ?_
  refine (MemberFrame.takes_read .method id pool).counted.bind fun used _ hmethods => ?_
  refine ((Takes.table (fun _ => AttributeFrame.takes pool _) _).last _).mono
    fun used _ hattributes => ?_
  obtain ⟨idIndex, rfl⟩ := hid
  obtain ⟨superclass, rfl⟩ := hsuperclass
  obtain ⟨interfaces, hinterfaces, rfl⟩ := hinterfaces
  obtain ⟨fields, hfields, rfl⟩ := hfields
  obtain ⟨methods, hmethods, rfl⟩ := hmethods
  obtain ⟨attributes, hattributes, rfl⟩ := hattributes
  refine ⟨⟨minorVersion, majorVersion, constants, flags, idIndex, superclass, interfaces, fields,
    methods, attributes, hslots, hinterfaces, hfields, hmethods, hattributes⟩, rfl, rfl, rfl, ?_⟩
  rw [hflags, hnothing]
  rfl

/-- Every class file that can be decoded is a frame, if its pool is counted exactly. -/
theorem exists_of_decode {expected : Option ClassId} {bytes : List UInt8} {c : ClassFile}
    (hexact : HasExactPool bytes) (h : ClassFile.decode expected bytes = .ok c) :
    ∃ (f : ClassFrame) (trailing : List UInt8), bytes = f.bytes ++ trailing := by
  obtain ⟨header, rest, constants, hheader, hslots, hbytes⟩ := hexact
  rw [decode_eq_alone, Decoder.alone_eq_ok_iff] at h
  obtain ⟨stop, hread⟩ := h
  obtain ⟨start, behindStart, hstart, hread⟩ := Decoder.bind_eq_ok hread
  obtain ⟨-, hstart, rfl⟩ := Takes.u4 _ _ _ hstart
  split at hread
  · contradiction
  next hmagic =>
  have hmagic : start = ClassFile.magic := by simpa using hmagic
  obtain ⟨minorVersion, behindMinor, hminor, hread⟩ := Decoder.bind_eq_ok hread
  obtain ⟨-, hminor, rfl⟩ := Takes.u2 _ _ _ hminor
  obtain ⟨majorVersion, behindMajor, hmajor, hread⟩ := Decoder.bind_eq_ok hread
  obtain ⟨-, hmajor, rfl⟩ := Takes.u2 _ _ _ hmajor
  obtain ⟨pool, behindPool, hpool, hread⟩ := Decoder.bind_eq_ok hread
  -- The header is as long as the numbers read so far, so the pool is read where it was laid out.
  have hsplit : header ++ (constants.bytes ++ rest) =
      (u4Bytes start ++ (u2Bytes minorVersion ++ u2Bytes majorVersion)) ++ behindMajor.rest := by
    rw [← hbytes, List.append_assoc, List.append_assoc, ← hmajor, ← hminor, ← hstart, Cursor.start]
  have hlength : header.length =
      (u4Bytes start ++ (u2Bytes minorVersion ++ u2Bytes majorVersion)).length := by
    rw [hheader]
    simp [u4Bytes, u2Bytes]
  obtain ⟨rfl, hrest⟩ := List.append_inj hsplit hlength
  have hbehind := (constants.yields_read hslots).rest_eq hrest.symm hpool
  obtain ⟨_, hdeclared, f, rfl, rfl, rfl, rfl⟩ :=
    takes_declaration expected minorVersion majorVersion pool hslots _ _ _ hread
  refine ⟨f, stop.rest, ?_⟩
  rw [hbytes, ← hbehind, hdeclared, ClassFrame.bytes, hmagic]
  simp only [List.append_assoc]

end ClassFrame

end ClassAtlas
