import ClassAtlas.Proofs.ClassFile.Frame
import ClassAtlas.Proofs.ClassFile.Truncation
import ClassAtlas.Proofs.Decoder.Answers

/-!
# Outlines of class files

A class file cut open at everything that its concealment depends on: the flags of the class
and the entries of its inner-class tables. What stands between is kept as the bytes that it was
decoded from. Every class file that can be decoded has an outline, and what the class file is
decoded into can be read off the outline.
-/

namespace ClassAtlas

/-! ### Inner-class tables -/

/-- An entry of an inner-class table: the slots of two classes and of a name, and flags. -/
structure InnerFrame where
  inner : UInt16
  outer : UInt16
  name : UInt16
  flags : AccessFlags

namespace InnerFrame

def bytes (e : InnerFrame) : List UInt8 :=
  u2Bytes e.inner ++ (u2Bytes e.outer ++ (u2Bytes e.name ++ u2Bytes e.flags))

def addTo (pool : ConstantPool) (table : InnerTable) (e : InnerFrame) :
    Except Error InnerTable := do
  if e.inner = 0 ∨ e.outer = 0 then return table
  let inner ← pool.classAt e.inner
  let outer ← pool.classAt e.outer
  return table.insert inner.text { inner, outer, flags := e.flags }

theorem yields_readInner (pool : ConstantPool) (table : InnerTable) (e : InnerFrame) :
    Yields (ClassAttributes.readInner pool table) e.bytes (e.addTo pool table) := by
  have hlinked (flags : AccessFlags) : Yields (do
      if e.inner = 0 ∨ e.outer = 0 then return table
      let inner ← Decoder.ofExcept (pool.classAt e.inner)
      let outer ← Decoder.ofExcept (pool.classAt e.outer)
      return table.insert inner.text { inner, outer, flags }) []
      (addTo pool table { e with flags }) := by
    unfold addTo
    split
    · exact .pure table
    · exact (Yields.ofExcept _).last fun _ _ => (Yields.ofExcept _).last fun _ _ => .pure _
  have hflags := (Decodes.u2 e.flags).yields.last fun flags _ => hlinked flags
  exact .after (Decodes.u2 e.inner) (.after (Decodes.u2 e.outer)
    (.after (Decodes.u2 e.name) hflags))

theorem takes_readInner (pool : ConstantPool) (table : InnerTable) :
    Takes (ClassAttributes.readInner pool table)
      fun used _ => ∃ e : InnerFrame, used = e.bytes := by
  refine Takes.u2.bind fun first inner hfirst => Takes.u2.bind fun second outer hsecond =>
    Takes.u2.bind fun third name hthird => Takes.u2.bind fun fourth flags hfourth => ?_
  have hentry : first ++ (second ++ (third ++ fourth)) =
      InnerFrame.bytes ⟨inner, outer, name, flags⟩ := by
    rw [hfirst, hsecond, hthird, hfourth, bytes]
  split
  · refine (Takes.pure table).mono fun more _ hmore => ⟨⟨inner, outer, name, flags⟩, ?_⟩
    rw [hmore.1, List.append_nil, hentry]
  · refine (Takes.ofExcept _).bind fun fifth _ hfifth => ((Takes.ofExcept _).last _).mono
      fun more _ hmore => ⟨⟨inner, outer, name, flags⟩, ?_⟩
    rw [hfifth, hmore, List.append_nil, List.append_nil, hentry]

end InnerFrame

def innerClassesName : String := "InnerClasses"

theorem readBody_innerClasses (pool : ConstantPool) (said : ClassAttributes) :
    said.readBody pool innerClassesName = (do
      let inners ← (do
        let count ← Decoder.u2
        Decoder.iterate (ClassAttributes.readInner pool) count.toNat said.inners)
      return { said with inners }) := by
  rw [bind_assoc]
  rfl

namespace ClassAttributes

theorem readBody_withInners {name : String} (hname : name ≠ innerClassesName)
    (pool : ConstantPool) (said : ClassAttributes) (inners : InnerTable) :
    readBody pool name { said with inners } = (do
      let next ← said.readBody pool name
      return { next with inners }) := by
  unfold readBody
  split
  · contradiction
  all_goals simp only [bind_assoc, pure_bind]

theorem inners_readBody {name : String} (hname : name ≠ innerClassesName)
    (pool : ConstantPool) (said : ClassAttributes) :
    Answers (said.readBody pool name) (·.inners = said.inners) := by
  unfold readBody
  split
  · contradiction
  · exact .after fun _ => .pure rfl
  · exact .after fun _ => .pure rfl
  · exact .after fun _ => .pure rfl
  · exact .after fun _ => .pure rfl
  · exact .after fun _ => .pure rfl
  · exact .pure rfl

end ClassAttributes

/-- An attribute of a class: an inner-class table, which may have more bytes behind it, or one
of another name. -/
inductive AttributeOutline (pool : ConstantPool) where
  | innerClasses (name : UInt16) (means : pool.textAt name = .ok innerClassesName)
      (entries : List InnerFrame) (rest : List UInt8) (count_lt : entries.length < 65536)
      (length_lt : (tableBytes InnerFrame.bytes entries ++ rest).length < 4294967296)
  | other (frame : AttributeFrame) (means : pool.textAt frame.name ≠ .ok innerClassesName)

namespace AttributeOutline

variable {pool : ConstantPool}

def frame : AttributeOutline pool → AttributeFrame
  | innerClasses name _ entries rest _ length_lt =>
    ⟨name, tableBytes InnerFrame.bytes entries ++ rest, length_lt⟩
  | other frame _ => frame

/-- What the class attributes say when those of one more attribute are taken in. -/
def outcome (said : ClassAttributes) (a : AttributeOutline pool) : Except Error ClassAttributes :=
  a.frame.outcome pool fun name => said.readBody pool name

theorem outcome_innerClasses (said : ClassAttributes) {name : UInt16}
    (means : pool.textAt name = .ok innerClassesName) {entries : List InnerFrame}
    {rest : List UInt8} (count_lt : entries.length < 65536)
    (length_lt : (tableBytes InnerFrame.bytes entries ++ rest).length < 4294967296) :
    outcome said (.innerClasses name means entries rest count_lt length_lt) =
      return { said with inners := ← entries.foldlM (InnerFrame.addTo pool) said.inners } := by
  have hbody : Yields (said.readBody pool innerClassesName)
      (tableBytes InnerFrame.bytes entries)
      (return { said with inners := ← entries.foldlM (InnerFrame.addTo pool) said.inners }) := by
    have htable := Yields.table entries count_lt
      (fun e _ table => e.yields_readInner pool table) said.inners
    rw [readBody_innerClasses]
    exact htable.last fun inners _ => .pure { said with inners }
  rw [outcome, AttributeFrame.outcome, frame, means]
  exact hbody.alone_eq rest

theorem outcome_other_eq_ok_iff {frame : AttributeFrame}
    (means : pool.textAt frame.name ≠ .ok innerClassesName) {said next : ClassAttributes} :
    outcome said (.other frame means) = .ok next ↔ ∃ name, name ≠ innerClassesName ∧
      pool.textAt frame.name = .ok name ∧
        ∃ stop, said.readBody pool name (.start frame.body) = .ok next stop := by
  constructor
  · intro h
    obtain ⟨name, hname, halone⟩ := bind_eq_ok_iff.1 h
    exact ⟨name, fun h => means (h ▸ hname), hname, Decoder.alone_eq_ok_iff.1 halone⟩
  · rintro ⟨name, -, hname, hread⟩
    exact bind_eq_ok_iff.2 ⟨name, hname, Decoder.alone_eq_ok_iff.2 hread⟩

theorem inners_outcome_other {frame : AttributeFrame}
    (means : pool.textAt frame.name ≠ .ok innerClassesName) {said next : ClassAttributes}
    (h : outcome said (.other frame means) = .ok next) : next.inners = said.inners := by
  obtain ⟨name, hother, -, stop, hread⟩ := (outcome_other_eq_ok_iff means).1 h
  exact ClassAttributes.inners_readBody hother pool said _ _ _ hread

theorem outcome_other_withInners {frame : AttributeFrame}
    (means : pool.textAt frame.name ≠ .ok innerClassesName) {said next : ClassAttributes}
    (h : outcome said (.other frame means) = .ok next) (inners : InnerTable) :
    outcome { said with inners } (.other frame means) = .ok { next with inners } := by
  obtain ⟨name, hother, hname, stop, hread⟩ := (outcome_other_eq_ok_iff means).1 h
  refine (outcome_other_eq_ok_iff means).2 ⟨name, hother, hname, stop, ?_⟩
  rw [ClassAttributes.readBody_withInners hother]
  change EStateM.bind _ _ _ = _
  rw [EStateM.bind, show said.readBody pool name (.start frame.body) = .ok next stop from hread]
  rfl

/-- Every attribute that can be taken in has an outline. -/
theorem takes_readNext (pool : ConstantPool) (said : ClassAttributes) :
    Takes (said.readNext pool) fun used _ => ∃ a : AttributeOutline pool, used = a.frame.bytes := by
  have hname : Takes pool.readText
      fun used name => ∃ index, used = u2Bytes index ∧ pool.textAt index = .ok name :=
    .slotValue pool.textAt
  refine hname.bind fun first name hfirst => Takes.u4.bind fun second length hsecond => ?_
  refine (Takes.withinAlone length.toNat (said.readBody pool name)).mono fun body _ hbody => ?_
  obtain ⟨index, rfl, hindex⟩ := hfirst
  obtain ⟨hlength, halone⟩ := hbody
  have hlt : body.length < 4294967296 := by
    rw [hlength]
    exact length.toNat_lt
  have hbytes : u2Bytes index ++ (second ++ body) = AttributeFrame.bytes ⟨index, body, hlt⟩ := by
    simp only [AttributeFrame.bytes, bodyBytes, hlength, UInt32.ofNat_toNat, hsecond]
  by_cases htable : name = innerClassesName
  · subst htable
    obtain ⟨stop, hread⟩ := Decoder.alone_eq_ok_iff.1 halone
    rw [readBody_innerClasses] at hread
    obtain ⟨used, hused, entries, hcount, rfl⟩ :=
      (Takes.table (InnerFrame.takes_readInner pool) said.inners).last _ _ _ _ hread
    obtain rfl : body = tableBytes InnerFrame.bytes entries ++ stop.rest := hused
    exact ⟨.innerClasses index hindex entries stop.rest hcount hlt, hbytes⟩
  · refine ⟨.other ⟨index, body, hlt⟩ ?_, hbytes⟩
    rw [hindex]
    exact fun h => htable (Except.ok.inj h)

end AttributeOutline

/-! ### Class files -/

namespace ClassFile

/-- What stands before the flags of a class. -/
structure Opening where
  minorVersion : UInt16
  majorVersion : UInt16
  pool : ConstantPool

def readOpening : Decoder Opening := do
  let start ← Decoder.u4
  if start != magic then Decoder.fail .notAClassFile
  let minorVersion ← Decoder.u2
  let majorVersion ← Decoder.u2
  let pool ← ConstantPool.read
  return { minorVersion, majorVersion, pool }

/-- What stands between the flags of a class and its attributes. -/
structure Declared where
  id : ClassId
  superclass : Option ClassId
  interfaces : List ClassId
  fields : List Member
  methods : List Member

def readDeclared (expected : Option ClassId) (pool : ConstantPool) : Decoder Declared := do
  let id ← pool.readClass
  checkIdentity expected id
  let superclass ← readOptionalClass pool
  let interfaces ← Decoder.counted pool.readClass
  let fields ← Decoder.counted (Member.read .field id pool)
  let methods ← Decoder.counted (Member.read .method id pool)
  return { id, superclass, interfaces, fields, methods }

def ofParts (opening : Opening) (flags : AccessFlags) (declared : Declared)
    (attributes : ClassAttributes) : ClassFile :=
  { minorVersion := opening.minorVersion
    majorVersion := opening.majorVersion
    pool := opening.pool
    flags
    id := declared.id
    superclass := declared.superclass
    interfaces := declared.interfaces
    fields := declared.fields
    methods := declared.methods
    attributes }

theorem read_eq (expected : Option ClassId) : ClassFile.read expected = (do
    let opening ← readOpening
    let flags ← Decoder.u2
    let declared ← readDeclared expected opening.pool
    let attributes ← ClassAttributes.read opening.pool
    return ofParts opening flags declared attributes) := by
  unfold ClassFile.read readOpening readDeclared
  simp only [bind_assoc, pure_bind, ofParts]
  refine bind_congr fun start => ?_
  split
  · rfl
  · simp only [bind_assoc, pure_bind]

theorem decodes_readOpening (minorVersion majorVersion : UInt16) {constants : WrittenPool}
    (hslots : constants.layout.table.length < 65536) (h : constants.layout.IsResolvable) :
    Decodes readOpening
      (u4Bytes magic ++ (u2Bytes minorVersion ++ (u2Bytes majorVersion ++ constants.bytes)))
      ⟨minorVersion, majorVersion, constants.layout.pool⟩ := by
  have hpool := constants.yields_read hslots
  rw [WrittenPool.outcome_eq_ok_iff.2 ⟨h, rfl⟩] at hpool
  refine (Decodes.u4 magic).bind ?_
  rw [if_neg (by decide)]
  exact (Decodes.u2 _).bind ((Decodes.u2 _).bind (hpool.decodes.last (.pure _)))

theorem isLocal_readOpening : IsLocal readOpening := by
  refine IsLocal.u4.bind fun start => ?_
  split
  · exact .throw_bind _ _
  · exact IsLocal.u2.bind fun _ => IsLocal.u2.bind fun _ =>
      ConstantPool.isLocal_read.bind fun _ => .pure _

theorem isLocal_readDeclared (expected : Option ClassId) (pool : ConstantPool) :
    IsLocal (readDeclared expected pool) := by
  refine pool.isLocal_readClass.bind fun id => (isLocal_checkIdentity expected id).bind fun _ => ?_
  refine (isLocal_readOptionalClass pool).bind fun superclass =>
    pool.isLocal_readClass.counted.bind fun interfaces => ?_
  exact (Member.isLocal_read pool .field id).counted.bind fun fields =>
    (Member.isLocal_read pool .method id).counted.bind fun methods => .pure _

end ClassFile

/-- A class file whose flags and attributes are laid open, with the bytes of everything else and
what these are decoded into. -/
structure ClassOutline (expected : Option ClassId) where
  opening : ClassFile.Opening
  front : List UInt8
  flags : AccessFlags
  declared : ClassFile.Declared
  body : List UInt8
  attributes : List (AttributeOutline opening.pool)
  trailing : List UInt8
  decodes_front : Decodes ClassFile.readOpening front opening
  decodes_body : Decodes (ClassFile.readDeclared expected opening.pool) body declared
  attributes_lt : attributes.length < 65536

namespace ClassOutline

variable {expected : Option ClassId}

def bytes (o : ClassOutline expected) : List UInt8 :=
  o.front ++ (u2Bytes o.flags ++ (o.body ++
    tableBytes (fun a => a.frame.bytes) o.attributes)) ++ o.trailing

def said (o : ClassOutline expected) : Except Error ClassAttributes :=
  o.attributes.foldlM AttributeOutline.outcome {}

theorem yields_read (o : ClassOutline expected) :
    Yields (ClassFile.read expected)
      (o.front ++ (u2Bytes o.flags ++ (o.body ++
        tableBytes (fun a => a.frame.bytes) o.attributes)))
      (return .ofParts o.opening o.flags o.declared (← o.said)) := by
  have hattributes : Yields (ClassAttributes.read o.opening.pool)
      (tableBytes (fun a => a.frame.bytes) o.attributes) o.said :=
    Yields.table o.attributes o.attributes_lt
      (fun a _ (said : ClassAttributes) => a.frame.yields o.opening.pool _) {}
  rw [ClassFile.read_eq]
  refine .after o.decodes_front (.after (Decodes.u2 o.flags) (.after o.decodes_body ?_))
  exact hattributes.last fun _ _ => .pure _

theorem decode_eq_ok_iff (o : ClassOutline expected) {c : ClassFile} :
    ClassFile.decode expected o.bytes = .ok c ↔
      ∃ said, o.said = .ok said ∧ c = .ofParts o.opening o.flags o.declared said := by
  have halone := o.yields_read.alone_eq o.trailing
  rw [ClassFrame.decode_eq_alone, bytes, halone, bind_eq_ok_iff]
  exact exists_congr fun said => and_congr_right fun _ => by simp [pure, Except.pure, eq_comm]

/-- Every class file that can be decoded has an outline. -/
theorem exists_of_decode {bytes : List UInt8} {c : ClassFile}
    (h : ClassFile.decode expected bytes = .ok c) :
    ∃ o : ClassOutline expected, bytes = o.bytes := by
  rw [ClassFrame.decode_eq_alone, Decoder.alone_eq_ok_iff] at h
  obtain ⟨stop, hread⟩ := h
  rw [ClassFile.read_eq] at hread
  obtain ⟨opening, behindOpening, hopening, hread⟩ := Decoder.bind_eq_ok hread
  obtain ⟨front, hfront, hneeds⟩ := ClassFile.isLocal_readOpening _ _ _ hopening
  obtain ⟨flags, behindFlags, hflags, hread⟩ := Decoder.bind_eq_ok hread
  obtain ⟨_, hflagBytes, rfl⟩ := Takes.u2 _ _ _ hflags
  obtain ⟨declared, behindBody, hdeclared, hread⟩ := Decoder.bind_eq_ok hread
  obtain ⟨body, hbody, hneedsBody⟩ := ClassFile.isLocal_readDeclared _ _ _ _ _ hdeclared
  obtain ⟨_, htable, attributes, hcount, rfl⟩ :=
    ((Takes.table (AttributeOutline.takes_readNext opening.pool) {}).last _) _ _ _ hread
  refine ⟨⟨opening, front, flags, declared, body, attributes, stop.rest, hneeds.decodes,
    hneedsBody.decodes, hcount⟩, ?_⟩
  rw [ClassOutline.bytes, List.append_assoc, List.append_assoc, List.append_assoc, ← htable,
    ← hbody, ← hflagBytes, ← hfront, Cursor.start]

end ClassOutline

/-! ### What members belong to -/

theorem Member.keeps_readAttribute (pool : ConstantPool) (name : String) (m : Member) :
    Answers (m.readAttribute pool name)
      fun found => found.container = m.container ∧ found.kind = m.kind := by
  unfold readAttribute
  split
  · exact .after fun _ => .pure ⟨rfl, rfl⟩
  · exact .pure ⟨rfl, rfl⟩
  · exact .pure ⟨rfl, rfl⟩
  · exact .after fun _ => .pure ⟨rfl, rfl⟩
  · exact .after fun _ => .pure ⟨rfl, rfl⟩
  · exact .after fun _ => .pure ⟨rfl, rfl⟩
  · exact .after fun _ => .pure ⟨rfl, rfl⟩
  · exact .after fun _ => .after fun _ => .pure ⟨rfl, rfl⟩
  · exact .after fun _ => .after fun _ => .pure ⟨rfl, rfl⟩
  · exact .after fun _ => .pure ⟨rfl, rfl⟩
  · exact .after fun _ => .pure ⟨rfl, rfl⟩
  · exact .after fun _ => .pure ⟨rfl, rfl⟩
  · exact .pure ⟨rfl, rfl⟩

theorem Member.belongs_read (kind : MemberKind) (container : ClassId) (pool : ConstantPool) :
    Answers (Member.read kind container pool)
      fun m => m.container = container ∧ m.kind = kind := by
  have hattribute (m : Member) (hm : m.container = container ∧ m.kind = kind) :
      Answers (m.readNextAttribute pool) fun m => m.container = container ∧ m.kind = kind := by
    refine .after fun name => .after fun length => .within ?_ length.toNat
    rw [← hm.1, ← hm.2]
    exact m.keeps_readAttribute pool name
  exact .after fun _ => .after fun _ => .after fun _ => .after fun count =>
    .iterate hattribute count.toNat ⟨rfl, rfl⟩

namespace ClassFile

/-- Every member belongs to the class, as a field or as a method. -/
theorem belongs_readDeclared (expected : Option ClassId) (pool : ConstantPool) :
    Answers (readDeclared expected pool) fun declared =>
      (∀ m ∈ declared.fields, m.container = declared.id ∧ m.kind = .field) ∧
        ∀ m ∈ declared.methods, m.container = declared.id ∧ m.kind = .method := by
  refine .after fun id => .after fun _ => .after fun _ => .after fun _ => ?_
  refine (Member.belongs_read .field id pool).counted.bind fun fields hfields => ?_
  exact (Member.belongs_read .method id pool).counted.bind fun methods hmethods =>
    .pure ⟨hfields, hmethods⟩

theorem kind_of_decode {expected : Option ClassId} {bytes : List UInt8} {c : ClassFile}
    (h : decode expected bytes = .ok c) :
    (∀ m ∈ c.fields, m.kind = .field) ∧ ∀ m ∈ c.methods, m.kind = .method := by
  have hkinds : Answers (ClassFile.read expected) fun c =>
      (∀ m ∈ c.fields, m.kind = .field) ∧ ∀ m ∈ c.methods, m.kind = .method := by
    rw [read_eq]
    refine .after fun opening => .after fun _ => ?_
    refine (belongs_readDeclared expected opening.pool).bind fun declared hdeclared => ?_
    exact .after fun _ => .pure
      ⟨fun m hm => (hdeclared.1 m hm).2, fun m hm => (hdeclared.2 m hm).2⟩
  obtain ⟨stop, hread⟩ := read_of_decode h
  exact hkinds _ _ _ hread

end ClassFile

end ClassAtlas
