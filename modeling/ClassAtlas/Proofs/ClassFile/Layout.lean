import ClassAtlas.Analysis
import ClassAtlas.Proofs.Member.Layout

/-!
# Laying out class files

A class file as its parts, with any row of attributes, and its bytes. Whatever such parts
say, loading the bytes succeeds and every question about the class is answered with it.
-/

namespace ClassAtlas

variable {pool : ConstantPool}

/-! ### Classes that may be missing -/

/-- The slot of a class, or slot zero for none. -/
def optionalIndex (id : Option (ClassSlot pool)) : UInt16 :=
  id.elim 0 Slot.index

theorem optionalIndex_eq_zero (hzero : pool.get? 0 = none) {id : Option (ClassSlot pool)} :
    optionalIndex id = 0 ↔ id = none := by
  cases id with
  | none => simp [optionalIndex]
  | some s =>
    have hne : s.index ≠ 0 := by
      intro h
      have hmeans := s.means
      rw [h, hzero] at hmeans
      contradiction
    simpa [optionalIndex] using hne

theorem decodes_optionalClass (hzero : pool.get? 0 = none) (id : Option (ClassSlot pool)) :
    Decodes (ClassFile.readOptionalClass pool) (u2Bytes (optionalIndex id))
      (id.map Slot.value) := by
  refine (Decodes.u2 _).last ?_
  by_cases hnone : optionalIndex id = 0
  · rw [if_pos hnone, (optionalIndex_eq_zero hzero).1 hnone]
    exact .pure none
  · rw [if_neg hnone]
    obtain ⟨s, rfl⟩ := Option.ne_none_iff_exists'.1 (mt (optionalIndex_eq_zero hzero).2 hnone)
    exact (Decodes.ofExcept s.classAt).last (.pure _)

/-! ### Attributes of classes -/

/-- An entry of the inner-class table. -/
structure InnerLayout (pool : ConstantPool) where
  inner : Option (ClassSlot pool)
  outer : Option (ClassSlot pool)
  name : UInt16
  flags : AccessFlags

namespace InnerLayout

def bytes (e : InnerLayout pool) : List UInt8 :=
  u2Bytes (optionalIndex e.inner) ++ (u2Bytes (optionalIndex e.outer) ++
    (u2Bytes e.name ++ u2Bytes e.flags))

def link? (e : InnerLayout pool) : Option InnerClass :=
  match e.inner, e.outer with
  | some inner, some outer => some ⟨inner.value, outer.value, e.flags⟩
  | _, _ => none

def addTo (table : InnerTable) (e : InnerLayout pool) : InnerTable :=
  e.link?.elim table fun link => table.insert link.inner.text link

theorem decodes (hzero : pool.get? 0 = none) (e : InnerLayout pool) (table : InnerTable) :
    Decodes (ClassAttributes.readInner pool table) e.bytes (e.addTo table) := by
  unfold ClassAttributes.readInner
  refine (Decodes.u2 _).bind ((Decodes.u2 _).bind
    ((Decodes.u2 e.name).bind ((Decodes.u2 e.flags).last ?_)))
  by_cases hmissing : optionalIndex e.inner = 0 ∨ optionalIndex e.outer = 0
  · have hlink : e.link? = none := by
      rw [optionalIndex_eq_zero hzero, optionalIndex_eq_zero hzero] at hmissing
      rcases hmissing with h | h
      · rw [link?, h]
      · rw [link?, h]
        cases e.inner <;> rfl
    rw [if_pos hmissing, addTo, hlink]
    exact .pure table
  · rw [if_neg hmissing]
    rw [optionalIndex_eq_zero hzero, optionalIndex_eq_zero hzero, not_or] at hmissing
    obtain ⟨inner, hinner⟩ := Option.ne_none_iff_exists'.1 hmissing.1
    obtain ⟨outer, houter⟩ := Option.ne_none_iff_exists'.1 hmissing.2
    rw [addTo, link?, hinner, houter]
    exact (Decodes.ofExcept inner.classAt).last ((Decodes.ofExcept outer.classAt).last (.pure _))

end InnerLayout

/-- The names of the attributes that are read of a class. -/
def ClassAttributes.attributeNames : List String :=
  ["InnerClasses", "Signature", "RuntimeVisibleAnnotations", "RuntimeInvisibleAnnotations",
    "RuntimeVisibleTypeAnnotations", "RuntimeInvisibleTypeAnnotations"]

theorem ClassAttributes.readBody_of_notMem {name : String} (h : name ∉ attributeNames)
    (pool : ConstantPool) (said : ClassAttributes) : said.readBody pool name = pure said := by
  unfold readBody
  split <;> first | rfl | exact absurd h (by decide)

/-- An attribute of a class (JVMS 4.7). -/
inductive ClassAttribute (pool : ConstantPool) where
  | innerClasses (entries : List (InnerLayout pool))
  | signature (text : TextSlot pool)
  | annotations (visible : Bool) (trees : List (AnnotationTree pool))
  | typeAnnotations (visible : Bool) (trees : List (TypeAnnotationTree pool))
  | other (name : String) (body : List UInt8)
      (unknown : name ∉ ClassAttributes.attributeNames)

namespace ClassAttribute

def name : ClassAttribute pool → String
  | innerClasses _ => "InnerClasses"
  | signature _ => "Signature"
  | annotations visible _ => runtimeName visible "Annotations"
  | typeAnnotations visible _ => runtimeName visible "TypeAnnotations"
  | other name _ _ => name

def body : ClassAttribute pool → List UInt8
  | innerClasses entries => tableBytes InnerLayout.bytes entries
  | signature text => u2Bytes text.index
  | annotations _ trees => tableBytes AnnotationTree.bytes trees
  | typeAnnotations _ trees => tableBytes TypeAnnotationTree.bytes trees
  | other _ body _ => body

def front : ClassAttribute pool → List UInt8
  | other _ _ _ => []
  | a => a.body

theorem body_eq (a : ClassAttribute pool) : ∃ rest, a.body = a.front ++ rest := by
  cases a with
  | other name body unknown => exact ⟨body, rfl⟩
  | _ => exact ⟨[], (List.append_nil _).symm⟩

def Within (levels : Nat) : ClassAttribute pool → Prop
  | annotations _ trees => ∀ tree ∈ trees, tree.levels ≤ levels
  | typeAnnotations _ trees => ∀ a ∈ trees, a.tree.levels ≤ levels
  | _ => True

def Fits : ClassAttribute pool → Prop
  | innerClasses entries => entries.length < 65536
  | annotations _ trees => trees.length < 65536 ∧ ∀ tree ∈ trees, tree.Fits
  | typeAnnotations _ trees => trees.length < 65536 ∧ ∀ a ∈ trees, a.Fits
  | _ => True

def signature? : ClassAttribute pool → Option String
  | signature text => some text.value
  | _ => none

def labelled : ClassAttribute pool → List (LabelledTree pool)
  | annotations _ trees => trees.map LabelledTree.plain
  | typeAnnotations _ trees => trees.filterMap TypeAnnotationTree.labelled?
  | _ => []

def links : ClassAttribute pool → List InnerClass
  | innerClasses entries => entries.filterMap InnerLayout.link?
  | _ => []

def addTo (said : ClassAttributes) : ClassAttribute pool → ClassAttributes
  | innerClasses entries => { said with inners := entries.foldl InnerLayout.addTo said.inners }
  | signature text => { said with signature := some text.value }
  | annotations _ trees =>
    { said with annotations := said.annotations ++ trees.map AnnotationTree.text }
  | typeAnnotations _ trees =>
    { said with annotations := said.annotations ++ trees.filterMap TypeAnnotationTree.text? }
  | other _ _ _ => said

theorem decodes_readBody (hzero : pool.get? 0 = none) (a : ClassAttribute pool)
    (hlevels : a.Within Annotations.maxLevels) (hfits : a.Fits) (said : ClassAttributes) :
    Decodes (said.readBody pool a.name) a.front (a.addTo said) := by
  cases a with
  | innerClasses entries =>
    have h := Decodes.iterate entries (fun e _ table => e.decodes hzero table) said.inners
    have hcount : (UInt16.ofNat entries.length).toNat = entries.length :=
      UInt16.toNat_ofNat_of_lt' hfits
    rw [← hcount] at h
    exact (Decodes.u2 _).bind (h.last (.pure _))
  | signature text => exact text.decodes_text.last (.pure _)
  | annotations visible trees =>
    have h := Decodes.counted trees hfits.1 fun tree htree =>
      tree.decodes_read (hlevels tree htree) (hfits.2 tree htree)
    cases visible <;> exact h.last (.pure _)
  | typeAnnotations visible trees =>
    have h := decodes_typedTable trees hfits.1 fun a ha => ⟨hfits.2 a ha, hlevels a ha⟩
    cases visible <;> exact h.last (.pure _)
  | other name body unknown =>
    change Decodes (said.readBody pool name) [] said
    rw [ClassAttributes.readBody_of_notMem unknown]
    exact .pure said

/-- The inner-class table has the last link of every inner class. -/
theorem getElem?_foldl_insert (text : String) (links : List InnerClass) (table : InnerTable) :
    (links.foldl (fun table link => table.insert link.inner.text link) table)[text]? =
      (links.filter fun link => link.inner.text = text).getLast?.or table[text]? := by
  have hinsert : ∀ (table : InnerTable) (link : InnerClass),
      (table.insert link.inner.text link)[text]? =
        (Option.guard (fun link : InnerClass => link.inner.text = text) link).or table[text]? := by
    intro table link
    rw [Std.TreeMap.getElem?_insert]
    by_cases h : link.inner.text = text <;> simp [Option.guard, h]
  rw [foldl_last (fun table : InnerTable => table[text]?) _ hinsert, List.filterMap_eq_filter]

theorem foldl_addTo_inners (contents : List (ClassAttribute pool)) (said : ClassAttributes) :
    (contents.foldl addTo said).inners =
      (contents.flatMap links).foldl (fun table link => table.insert link.inner.text link)
        said.inners := by
  induction contents generalizing said with
  | nil => rfl
  | cons a contents ih =>
    rw [List.foldl_cons, ih, List.flatMap_cons, List.foldl_append]
    congr 1
    cases a with
    | innerClasses entries =>
      rw [addTo, links, List.foldl_filterMap]
      dsimp only
      congr
      funext table e
      rw [InnerLayout.addTo]
      cases e.link? <;> rfl
    | _ => rfl

end ClassAttribute

/-! ### Class files -/

/-- A class file (JVMS 4.1). -/
structure ClassLayout where
  minorVersion : UInt16
  majorVersion : UInt16
  constants : PoolLayout
  flags : AccessFlags
  id : ClassSlot constants.pool
  superclass : Option (ClassSlot constants.pool)
  interfaces : List (ClassSlot constants.pool)
  fields : List (MemberLayout constants.pool)
  methods : List (MemberLayout constants.pool)
  attributes : List (NamedAttribute constants.pool (@ClassAttribute.name constants.pool))

namespace ClassLayout

variable (d : ClassLayout)

def contents : List (ClassAttribute d.constants.pool) :=
  d.attributes.map NamedAttribute.content

def bytes : List UInt8 :=
  u4Bytes ClassFile.magic ++ (u2Bytes d.minorVersion ++ (u2Bytes d.majorVersion ++
    (d.constants.bytes ++ (u2Bytes d.flags ++ (u2Bytes d.id.index ++
      (u2Bytes (optionalIndex d.superclass) ++
        (tableBytes (fun id => u2Bytes id.index) d.interfaces ++
        (tableBytes MemberLayout.bytes d.fields ++ (tableBytes MemberLayout.bytes d.methods ++
          tableBytes (NamedAttribute.bytes ClassAttribute.body) d.attributes)))))))))

structure Fits : Prop where
  constants : d.constants.Fits
  interfaces : d.interfaces.length < 65536
  fields : d.fields.length < 65536 ∧ ∀ m ∈ d.fields, m.Fits
  methods : d.methods.length < 65536 ∧ ∀ m ∈ d.methods, m.Fits
  attributes : d.attributes.length < 65536 ∧ ∀ a ∈ d.contents, a.Fits ∧ a.body.length < 4294967296

/-- All annotation values nest at most so deeply. -/
structure Within (levels : Nat) : Prop where
  fields : ∀ m ∈ d.fields, m.Within levels
  methods : ∀ m ∈ d.methods, m.Within levels
  attributes : ∀ a ∈ d.contents, a.Within levels

def erasedSignature : String :=
  String.join ((d.superclass.toList ++ d.interfaces).map fun id => "L" ++ id.value.text ++ ";")

/-- Whether questions about a class are answered with what was laid out. -/
structure Describes (a : Analysis) : Prop where
  minorVersion_eq : a.current.map ClassFile.minorVersion = some d.minorVersion
  majorVersion_eq : a.current.map ClassFile.majorVersion = some d.majorVersion
  pool_eq : a.current.map ClassFile.pool = some d.constants.pool
  flags_eq : a.flags = d.flags
  id_eq : a.id? = some d.id.value
  superclass_eq : a.superclass? = d.superclass.map Slot.value
  interfaces_eq : a.current.map ClassFile.interfaces = some (d.interfaces.map Slot.value)
  fields_eq : List.Forall₂ (fun m => m.Describes .field d.id.value) d.fields a.fields
  methods_eq : List.Forall₂ (fun m => m.Describes .method d.id.value) d.methods a.methods
  annotations_show : ∃ texts, a.current.map (·.attributes.annotations) = some texts ∧
    List.Forall₂ LabelledTree.Shows (d.contents.flatMap ClassAttribute.labelled) texts
  /-- The last entry of each inner class, of those with both classes. -/
  inners_eq : ∀ text, a.current.bind (·.attributes.inners[text]?) =
    ((d.contents.flatMap ClassAttribute.links).filter fun link => link.inner.text = text).getLast?
  /-- The last signature, or else the erased one. -/
  signature_eq : a.signature? =
    some ((d.contents.filterMap ClassAttribute.signature?).getLast?.getD d.erasedSignature)

def classFile : ClassFile where
  minorVersion := d.minorVersion
  majorVersion := d.majorVersion
  pool := d.constants.pool
  flags := d.flags
  id := d.id.value
  superclass := d.superclass.map Slot.value
  interfaces := d.interfaces.map Slot.value
  fields := d.fields.map fun m => m.member .field d.id.value
  methods := d.methods.map fun m => m.member .method d.id.value
  attributes := d.contents.foldl ClassAttribute.addTo {}

theorem pool_get?_zero (l : PoolLayout) : l.pool.get? 0 = none :=
  rfl

theorem decodes_attributes (hfits : d.Fits) (hlevels : d.Within Annotations.maxLevels) :
    Decodes (ClassAttributes.read d.constants.pool)
      (tableBytes (NamedAttribute.bytes ClassAttribute.body) d.attributes)
      (d.contents.foldl ClassAttribute.addTo {}) := by
  have hzero := pool_get?_zero d.constants
  have h := Decodes.attributes
    (f := fun said name => ClassAttributes.readBody d.constants.pool name said)
    (g := ClassAttribute.addTo) d.attributes hfits.attributes.1 ClassAttribute.body_eq fun a ha =>
      ⟨(hfits.attributes.2 a ha).2,
        a.decodes_readBody hzero (hlevels.attributes a ha) (hfits.attributes.2 a ha).1⟩
  exact h {}

theorem decodes_read (hfits : d.Fits) (hresolvable : d.constants.IsResolvable)
    (hlevels : d.Within Annotations.maxLevels) :
    Decodes (ClassFile.read none) d.bytes d.classFile := by
  have hinterfaces := Decodes.counted d.interfaces hfits.interfaces fun s _ => s.decodes_class
  have hfields := Decodes.counted d.fields hfits.fields.1 fun m hm =>
    m.decodes_read (hfits.fields.2 m hm) (hlevels.fields m hm) .field d.id.value
  have hmethods := Decodes.counted d.methods hfits.methods.1 fun m hm =>
    m.decodes_read (hfits.methods.2 m hm) (hlevels.methods m hm) .method d.id.value
  have hattributes := d.decodes_attributes hfits hlevels
  have hsuperclass := decodes_optionalClass (pool_get?_zero d.constants) d.superclass
  have hpool := d.constants.decodes_read hfits.constants hresolvable
  unfold ClassFile.read
  refine (Decodes.u4 ClassFile.magic).bind ?_
  rw [if_neg (by decide)]
  refine (Decodes.u2 d.minorVersion).bind ((Decodes.u2 d.majorVersion).bind (hpool.bind
    ((Decodes.u2 d.flags).bind (d.id.decodes_class.bind ?_))))
  refine (Decodes.pure ()).after (hsuperclass.bind (hinterfaces.bind (hfields.bind
    (hmethods.bind ?_))))
  exact hattributes.last (.pure _)

theorem describes_classFile : d.Describes ⟨some d.classFile⟩ where
  minorVersion_eq := rfl
  majorVersion_eq := rfl
  pool_eq := rfl
  flags_eq := rfl
  id_eq := rfl
  superclass_eq := rfl
  interfaces_eq := rfl
  fields_eq := by
    refine List.forall₂_map_right_iff.2 (List.forall₂_same.2 fun m _ => ?_)
    exact m.describes_member .field d.id.value
  methods_eq := by
    refine List.forall₂_map_right_iff.2 (List.forall₂_same.2 fun m _ => ?_)
    exact m.describes_member .method d.id.value
  annotations_show := by
    have h (said : ClassAttributes) (a : ClassAttribute d.constants.pool) :
        (a.addTo said).annotations =
          said.annotations ++ a.labelled.map LabelledTree.text := by
      cases a with
      | annotations visible trees =>
        rw [ClassAttribute.labelled, LabelledTree.map_text_plain]
        rfl
      | typeAnnotations visible trees =>
        rw [ClassAttribute.labelled, List.map_filterMap]
        rfl
      | _ => exact (List.append_nil _).symm
    have hgathered := foldl_gathered ClassAttributes.annotations _ h d.contents {}
    rw [List.nil_append, ← List.map_flatMap] at hgathered
    exact ⟨_, congrArg some hgathered, LabelledTree.forall₂_shows _⟩
  inners_eq text := by
    have h := ClassAttribute.foldl_addTo_inners d.contents {}
    change (d.contents.foldl ClassAttribute.addTo {}).inners[text]? = _
    rw [h, ClassAttribute.getElem?_foldl_insert]
    simp
  signature_eq := by
    have h : (d.contents.foldl ClassAttribute.addTo {}).signature =
        (d.contents.filterMap ClassAttribute.signature?).getLast?.or none :=
      foldl_last ClassAttributes.signature ClassAttribute.signature?
        (fun _ a => by cases a <;> rfl) d.contents {}
    have herased : d.classFile.erasedSignature = d.erasedSignature := by
      simp only [ClassFile.erasedSignature, classFile, erasedSignature, Option.toList_map,
        ← List.map_append, List.map_map, Function.comp_def]
    rw [Option.or_none] at h
    change some ((d.contents.foldl ClassAttribute.addTo {}).signature.getD _) = _
    rw [h, herased]

/-- What was laid out is loaded without an error, and is there afterwards. -/
theorem load_bytes (hfits : d.Fits) (hresolvable : d.constants.IsResolvable)
    (hlevels : d.Within 257) (before : Analysis) :
    ∃ after, (Analysis.load none d.bytes).run before = .ok () after ∧ d.Describes after := by
  refine ⟨⟨some d.classFile⟩, ?_, d.describes_classFile⟩
  have h := d.decodes_read hfits hresolvable hlevels 0 []
  rw [List.append_nil] at h
  have hdecode : ClassFile.decode none d.bytes = .ok d.classFile := by
    rw [ClassFile.decode, EStateM.run, Cursor.start, h]
  rw [EStateM.run, Analysis.load, hdecode]

end ClassLayout

def sampleConstants : PoolLayout where
  items := [.classInfo 2, .text "A", .long 7, .classInfo 6, .text "B", .text "x", .text "J",
    .text "ConstantValue", .text "InnerClasses", .methodType 8, .text "Deprecated",
    .text "RuntimeVisibleAnnotations", .text "LT;"]

/-- A class with a constant field that is annotated, with two entries in its inner-class
table and with an attribute that nothing reads. -/
def sampleClass : ClassLayout :=
  let sample : ClassSlot sampleConstants.pool := ⟨1, .ofName (.ofText "A"), rfl⟩
  let parent : ClassSlot sampleConstants.pool := ⟨5, .ofName (.ofText "B"), rfl⟩
  let seven : ConstantSlot sampleConstants.pool := ⟨3, .long 7, rfl⟩
  let x : TextSlot sampleConstants.pool := ⟨7, "x", rfl⟩
  let mark : AnnotationTree sampleConstants.pool :=
    .mk ⟨14, "LT;", rfl⟩ [.mk x (.array [.constant .long seven])]
  { minorVersion := 0
    majorVersion := 52
    constants := sampleConstants
    flags := 0x0021
    id := sample
    superclass := some parent
    interfaces := []
    fields := [{
      flags := 0x0019
      name := x
      descriptor := ⟨8, "J", rfl⟩
      attributes := [⟨⟨9, "ConstantValue", rfl⟩, .constantValue seven, rfl⟩,
        ⟨⟨13, "RuntimeVisibleAnnotations", rfl⟩, .annotations true [mark], rfl⟩] }]
    methods := []
    attributes := [
      ⟨⟨10, "InnerClasses", rfl⟩,
        .innerClasses [⟨some sample, some parent, 2, 0x0008⟩, ⟨some sample, none, 0, 0⟩], rfl⟩,
      ⟨⟨12, "Deprecated", rfl⟩, .other "Deprecated" [1, 2, 3] (by decide), rfl⟩] }

theorem sampleClass_fits : sampleClass.Fits where
  constants := by
    refine ⟨by decide, ?_⟩
    simp [sampleClass, sampleConstants, PoolItem.Fits]
    decide
  interfaces := by decide
  fields := by
    refine ⟨by decide, List.forall_mem_singleton.2 ⟨by decide, ?_⟩⟩
    refine List.forall_mem_cons.2 ⟨⟨trivial, by decide⟩, ?_⟩
    refine List.forall_mem_singleton.2 ⟨?_, by decide⟩
    have hone : 1 < 65536 := by decide
    exact ⟨hone, List.forall_mem_singleton.2 ⟨hone, ⟨hone, trivial, trivial⟩, trivial⟩⟩
  methods := ⟨by decide, List.forall_mem_nil _⟩
  attributes := by
    refine ⟨by decide, List.forall_mem_cons.2 ⟨⟨(by decide : 2 < 65536), by decide⟩, ?_⟩⟩
    exact List.forall_mem_singleton.2 ⟨trivial, by decide⟩

theorem sampleClass_resolvable : sampleClass.constants.IsResolvable := by
  unfold PoolLayout.IsResolvable
  simp only [sampleClass, sampleConstants, List.forall_mem_cons]
  decide

theorem sampleClass_within : sampleClass.Within 257 where
  fields := by
    refine List.forall_mem_singleton.2 (List.forall_mem_cons.2 ⟨trivial, ?_⟩)
    exact List.forall_mem_singleton.2 (List.forall_mem_singleton.2 (by decide))
  methods := List.forall_mem_nil _
  attributes := List.forall_mem_cons.2 ⟨trivial, List.forall_mem_singleton.2 trivial⟩

theorem load_bytes_sampleClass :
    ∃ after, (Analysis.load none sampleClass.bytes).run {} = .ok () after ∧
      sampleClass.Describes after :=
  sampleClass.load_bytes sampleClass_fits sampleClass_resolvable sampleClass_within {}

end ClassAtlas
