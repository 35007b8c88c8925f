import ClassAtlas.Member
import ClassAtlas.Proofs.Annotations.TypeAnnotations

/-!
# Laying out members

Fields and methods with any row of attributes. Of attributes that say the same thing of a
member, the last one counts; exceptions and annotations are gathered from all of them, and
attributes of other names say nothing.
-/

namespace ClassAtlas

variable {pool : ConstantPool}

/-! ### Attributes -/

structure NamedAttribute (pool : ConstantPool) {α : Type} (name : α → String) where
  slot : TextSlot pool
  content : α
  named : slot.value = name content

def NamedAttribute.bytes {α : Type} {name : α → String} (body : α → List UInt8)
    (a : NamedAttribute pool name) : List UInt8 :=
  u2Bytes a.slot.index ++ bodyBytes (body a.content)

/-- An attribute is decoded when its body is, up to bytes at the end that nothing reads. -/
theorem Decodes.attribute {α β : Type} {name : α → String} {body : α → List UInt8}
    {f : String → Decoder β} {b : β} (a : NamedAttribute pool name) {front rest : List UInt8}
    (hbody : body a.content = front ++ rest) (hlength : (body a.content).length < 4294967296)
    (hf : Decodes (f (name a.content)) front b) :
    Decodes (do
      let found ← pool.readText
      let length ← Decoder.u4
      Decoder.within length.toNat (f found)) (a.bytes body) b := by
  refine a.slot.decodes_text.bind ((Decodes.u4 _).bind ?_)
  rw [UInt32.toNat_ofNat_of_lt' hlength, a.named, hbody]
  exact hf.within rest

theorem Decodes.attributes {α σ : Type} {name : α → String} {body front : α → List UInt8}
    {f : σ → String → Decoder σ} {g : σ → α → σ} (attributes : List (NamedAttribute pool name))
    (hcount : attributes.length < 65536) (hbody : ∀ a, ∃ rest, body a = front a ++ rest)
    (h : ∀ a ∈ attributes.map NamedAttribute.content, (body a).length < 4294967296 ∧
      ∀ s, Decodes (f s (name a)) (front a) (g s a)) (s : σ) :
    Decodes (do
      let count ← Decoder.u2
      Decoder.iterate (fun s => do
        let found ← pool.readText
        let length ← Decoder.u4
        Decoder.within length.toNat (f s found)) count.toNat s)
      (tableBytes (NamedAttribute.bytes body) attributes)
      ((attributes.map NamedAttribute.content).foldl g s) := by
  rw [List.foldl_map]
  refine Decodes.table attributes hcount (fun a ha s => ?_) s
  obtain ⟨hlength, hread⟩ := h a.content (List.mem_map_of_mem ha)
  obtain ⟨rest, hrest⟩ := hbody a.content
  exact Decodes.attribute a hrest hlength (hread s)

/-- The name of an attribute that annotation processors see at run time or not. -/
def runtimeName (visible : Bool) (what : String) : String :=
  (if visible then "RuntimeVisible" else "RuntimeInvisible") ++ what

/-- The names of the attributes that are read of a field or a method. -/
def Member.attributeNames : List String :=
  ["ConstantValue", "Synthetic", "Deprecated", "Signature", "Exceptions",
    "RuntimeVisibleAnnotations", "RuntimeInvisibleAnnotations",
    "RuntimeVisibleParameterAnnotations", "RuntimeInvisibleParameterAnnotations",
    "RuntimeVisibleTypeAnnotations", "RuntimeInvisibleTypeAnnotations", "AnnotationDefault"]

theorem Member.readAttribute_of_notMem {name : String} (h : name ∉ attributeNames)
    (pool : ConstantPool) (m : Member) : m.readAttribute pool name = pure m := by
  unfold readAttribute
  split <;> first | rfl | exact absurd h (by decide)

/-- An attribute of a field or a method (JVMS 4.7). -/
inductive MemberAttribute (pool : ConstantPool) where
  | constantValue (value : ConstantSlot pool)
  | synthetic
  | deprecated
  | signature (text : TextSlot pool)
  | exceptions (thrown : List (ClassSlot pool))
  | annotations (visible : Bool) (trees : List (AnnotationTree pool))
  | parameterAnnotations (visible : Bool) (parameters : List (List (AnnotationTree pool)))
  | typeAnnotations (visible : Bool) (trees : List (TypeAnnotationTree pool))
  | annotationDefault (value : ElementValue pool)
  | other (name : String) (body : List UInt8)
      (unknown : name ∉ Member.attributeNames)

namespace MemberAttribute

def name : MemberAttribute pool → String
  | constantValue _ => "ConstantValue"
  | synthetic => "Synthetic"
  | deprecated => "Deprecated"
  | signature _ => "Signature"
  | exceptions _ => "Exceptions"
  | annotations visible _ => runtimeName visible "Annotations"
  | parameterAnnotations visible _ => runtimeName visible "ParameterAnnotations"
  | typeAnnotations visible _ => runtimeName visible "TypeAnnotations"
  | annotationDefault _ => "AnnotationDefault"
  | other name _ _ => name

def body : MemberAttribute pool → List UInt8
  | constantValue value => u2Bytes value.index
  | synthetic | deprecated => []
  | signature text => u2Bytes text.index
  | exceptions thrown => tableBytes (fun id => u2Bytes id.index) thrown
  | annotations _ trees => tableBytes AnnotationTree.bytes trees
  | parameterAnnotations _ parameters =>
    .ofNat parameters.length :: parameters.flatMap (tableBytes AnnotationTree.bytes)
  | typeAnnotations _ trees => tableBytes TypeAnnotationTree.bytes trees
  | annotationDefault value => value.bytes
  | other _ body _ => body

def front : MemberAttribute pool → List UInt8
  | other _ _ _ => []
  | a => a.body

theorem body_eq (a : MemberAttribute pool) : ∃ rest, a.body = a.front ++ rest := by
  cases a with
  | other name body unknown => exact ⟨body, rfl⟩
  | _ => exact ⟨[], (List.append_nil _).symm⟩

def Within (levels : Nat) : MemberAttribute pool → Prop
  | annotations _ trees => ∀ tree ∈ trees, tree.levels ≤ levels
  | parameterAnnotations _ parameters =>
    ∀ trees ∈ parameters, ∀ tree ∈ trees, tree.levels ≤ levels
  | typeAnnotations _ trees => ∀ a ∈ trees, a.tree.levels ≤ levels
  | annotationDefault value => value.levels ≤ levels
  | _ => True

def Fits : MemberAttribute pool → Prop
  | exceptions thrown => thrown.length < 65536
  | annotations _ trees => trees.length < 65536 ∧ ∀ tree ∈ trees, tree.Fits
  | parameterAnnotations _ parameters =>
    parameters.length < 256 ∧
      ∀ trees ∈ parameters, trees.length < 65536 ∧ ∀ tree ∈ trees, tree.Fits
  | typeAnnotations _ trees => trees.length < 65536 ∧ ∀ a ∈ trees, a.Fits
  | annotationDefault value => value.Fits
  | _ => True

def addTo (m : Member) : MemberAttribute pool → Member
  | constantValue value => { m with value := some value.value }
  | synthetic => { m with markedSynthetic := true }
  | deprecated => { m with isDeprecated := true }
  | signature text => { m with descriptor := text.value }
  | exceptions thrown =>
    { m with
      exceptions :=
        (thrown.map Slot.value).foldl (fun names id => names.insert id.text) m.exceptions }
  | annotations _ trees => { m with annotations := m.annotations ++ trees.map AnnotationTree.text }
  | parameterAnnotations _ parameters =>
    { m with
      parameterAnnotations :=
        m.parameterAnnotations ++ parameters.map (List.map AnnotationTree.text) }
  | typeAnnotations _ trees =>
    { m with annotations := m.annotations ++ trees.filterMap TypeAnnotationTree.text? }
  | annotationDefault value => { m with defaultValue := some value.text }
  | other _ _ _ => m

theorem decodes_readAttribute (a : MemberAttribute pool) (hlevels : a.Within Annotations.maxLevels)
    (hfits : a.Fits) (m : Member) :
    Decodes (m.readAttribute pool a.name) a.front (a.addTo m) := by
  cases a with
  | constantValue value => exact value.decodes_constant.last (.pure _)
  | synthetic => exact .pure _
  | deprecated => exact .pure _
  | signature text => exact text.decodes_text.last (.pure _)
  | exceptions thrown =>
    have h := Decodes.counted thrown hfits fun s _ => s.decodes_class
    exact h.last (.pure _)
  | annotations visible trees =>
    have h := Decodes.counted trees hfits.1 fun tree htree =>
      tree.decodes_read (hlevels tree htree) (hfits.2 tree htree)
    cases visible <;> exact h.last (.pure _)
  | parameterAnnotations visible parameters =>
    have htable : ∀ trees ∈ parameters, Decodes (Decoder.counted (Annotations.read pool))
        (tableBytes AnnotationTree.bytes trees) (trees.map AnnotationTree.text) :=
      fun trees htrees => Decodes.counted trees (hfits.2 trees htrees).1 fun tree htree =>
        tree.decodes_read (hlevels trees htrees tree htree) ((hfits.2 trees htrees).2 tree htree)
    have h := Decodes.replicate parameters htable
    have hcount : (UInt8.ofNat parameters.length).toNat = parameters.length :=
      UInt8.toNat_ofNat_of_lt' hfits.1
    rw [← hcount] at h
    cases visible <;> exact .tagged _ (h.last (.pure _))
  | typeAnnotations visible trees =>
    have h := decodes_typedTable trees hfits.1 fun a ha => ⟨hfits.2 a ha, hlevels a ha⟩
    cases visible <;> exact h.last (.pure _)
  | annotationDefault value =>
    have h := value.decodes Annotations.maxLevels hlevels hfits
    exact h.last (.pure _)
  | other name body unknown =>
    change Decodes (m.readAttribute pool name) [] m
    rw [Member.readAttribute_of_notMem unknown]
    exact .pure m

/-! What an attribute says of a member, each thing by itself. -/

def signature? : MemberAttribute pool → Option String
  | signature text => some text.value
  | _ => none

def constantValue? : MemberAttribute pool → Option Constant
  | constantValue value => some value.value
  | _ => none

def default? : MemberAttribute pool → Option (ElementValue pool)
  | annotationDefault value => some value
  | _ => none

def thrown : MemberAttribute pool → List ClassId
  | exceptions thrown => thrown.map Slot.value
  | _ => []

/-- The annotations of the member, with those of the types in it that are not inside code. -/
def labelled : MemberAttribute pool → List (LabelledTree pool)
  | annotations _ trees => trees.map LabelledTree.plain
  | typeAnnotations _ trees => trees.filterMap TypeAnnotationTree.labelled?
  | _ => []

def parameterTrees : MemberAttribute pool → List (List (AnnotationTree pool))
  | parameterAnnotations _ parameters => parameters
  | _ => []

def isSynthetic : MemberAttribute pool → Bool
  | synthetic => true
  | _ => false

def isDeprecated : MemberAttribute pool → Bool
  | deprecated => true
  | _ => false

end MemberAttribute

/-! ### Folding attributes -/

section

variable {α β σ : Type} {next : σ → α → σ}

theorem foldl_last (get : σ → Option β) (said : α → Option β)
    (h : ∀ s a, get (next s a) = (said a).or (get s)) (l : List α) (s : σ) :
    get (l.foldl next s) = (l.filterMap said).getLast?.or (get s) := by
  induction l generalizing s with
  | nil => rfl
  | cons a l ih =>
    rw [List.foldl_cons, ih, h]
    cases ha : said a with
    | none => simp [ha]
    | some b =>
      rw [List.filterMap_cons_some ha, List.getLast?_cons]
      cases (l.filterMap said).getLast? <;> rfl

theorem foldl_gathered (get : σ → List β) (said : α → List β)
    (h : ∀ s a, get (next s a) = get s ++ said a) (l : List α) (s : σ) :
    get (l.foldl next s) = get s ++ l.flatMap said := by
  induction l generalizing s with
  | nil => simp
  | cons a l ih => rw [List.foldl_cons, ih, h, List.flatMap_cons, List.append_assoc]

theorem foldl_any (get : σ → Bool) (said : α → Bool)
    (h : ∀ s a, get (next s a) = (get s || said a)) (l : List α) (s : σ) :
    get (l.foldl next s) = (get s || l.any said) := by
  induction l generalizing s with
  | nil => simp
  | cons a l ih => rw [List.foldl_cons, ih, h, List.any_cons, Bool.or_assoc]

theorem foldl_kept (get : σ → β) (h : ∀ s a, get (next s a) = get s) (l : List α) (s : σ) :
    get (l.foldl next s) = get s := by
  induction l generalizing s with
  | nil => rfl
  | cons a l ih => rw [List.foldl_cons, ih, h]

end

/-! ### Members -/

/-- A field or a method (JVMS 4.5 and 4.6). -/
structure MemberLayout (pool : ConstantPool) where
  flags : AccessFlags
  name : TextSlot pool
  descriptor : TextSlot pool
  attributes : List (NamedAttribute pool (@MemberAttribute.name pool))

namespace MemberLayout

variable (d : MemberLayout pool)

def contents : List (MemberAttribute pool) :=
  d.attributes.map NamedAttribute.content

def bytes : List UInt8 :=
  u2Bytes d.flags ++ (u2Bytes d.name.index ++ (u2Bytes d.descriptor.index ++
    tableBytes (NamedAttribute.bytes MemberAttribute.body) d.attributes))

structure Fits : Prop where
  count : d.attributes.length < 65536
  attributes : ∀ a ∈ d.contents, a.Fits ∧ a.body.length < 4294967296

def Within (levels : Nat) : Prop :=
  ∀ a ∈ d.contents, a.Within levels

/-- Whether a decoded member is the one laid out. -/
structure Describes (kind : MemberKind) (container : ClassId) (m : Member) : Prop where
  kind_eq : m.kind = kind
  container_eq : m.container = container
  flags_eq : m.flags = d.flags
  name_eq : m.name = d.name.value
  erasedDescriptor_eq : m.erasedDescriptor = d.descriptor.value
  /-- The last signature, or else the descriptor. -/
  descriptor_eq :
    m.descriptor =
      (d.contents.filterMap MemberAttribute.signature?).getLast?.getD d.descriptor.value
  value_eq : m.value = (d.contents.filterMap MemberAttribute.constantValue?).getLast?
  markedSynthetic_eq : m.markedSynthetic = d.contents.any MemberAttribute.isSynthetic
  isDeprecated_eq : m.isDeprecated = d.contents.any MemberAttribute.isDeprecated
  mem_exceptions : ∀ text, text ∈ m.exceptions ↔
    ∃ id ∈ d.contents.flatMap MemberAttribute.thrown, id.text = text
  annotations_show : List.Forall₂ LabelledTree.Shows
    (d.contents.flatMap MemberAttribute.labelled) m.annotations
  parameterAnnotations_show : List.Forall₂ (List.Forall₂ AnnotationTree.Shows)
    (d.contents.flatMap MemberAttribute.parameterTrees) m.parameterAnnotations
  defaultValue_shows : Option.Rel ElementValue.Shows
    (d.contents.filterMap MemberAttribute.default?).getLast? m.defaultValue

def member (kind : MemberKind) (container : ClassId) : Member :=
  d.contents.foldl MemberAttribute.addTo
    { kind
      container
      flags := d.flags
      name := d.name.value
      erasedDescriptor := d.descriptor.value }

theorem decodes_read (hfits : d.Fits) (hlevels : d.Within Annotations.maxLevels) (kind : MemberKind)
    (container : ClassId) :
    Decodes (Member.read kind container pool) d.bytes (d.member kind container) := by
  have hattributes := Decodes.attributes (f := fun m name => Member.readAttribute pool name m)
    (g := MemberAttribute.addTo) d.attributes hfits.count MemberAttribute.body_eq fun a ha =>
      ⟨(hfits.attributes a ha).2,
        a.decodes_readAttribute (hlevels a ha) (hfits.attributes a ha).1⟩
  unfold Member.read
  refine (Decodes.u2 _).bind (d.name.decodes_text.bind (d.descriptor.decodes_text.bind ?_))
  exact hattributes _

theorem mem_foldl_insert (text : String) (ids : List ClassId) (names : Std.TreeSet String) :
    text ∈ ids.foldl (fun names id => names.insert id.text) names ↔
      text ∈ names ∨ ∃ id ∈ ids, id.text = text := by
  induction ids generalizing names with
  | nil => simp
  | cons id ids ih =>
    rw [List.foldl_cons, ih, Std.TreeSet.mem_insert, Std.LawfulEqCmp.compare_eq_iff_eq]
    simp only [List.exists_mem_cons_iff]
    tauto

theorem mem_exceptions_foldl (text : String) (contents : List (MemberAttribute pool)) (m : Member) :
    text ∈ (contents.foldl MemberAttribute.addTo m).exceptions ↔
      text ∈ m.exceptions ∨ ∃ id ∈ contents.flatMap MemberAttribute.thrown, id.text = text := by
  induction contents generalizing m with
  | nil => simp
  | cons a contents ih =>
    have hadd : text ∈ (a.addTo m).exceptions ↔
        text ∈ m.exceptions ∨ ∃ id ∈ a.thrown, id.text = text := by
      cases a with
      | exceptions thrown => exact mem_foldl_insert text _ m.exceptions
      | _ => simp [MemberAttribute.addTo, MemberAttribute.thrown]
    rw [List.foldl_cons, ih, hadd, List.flatMap_cons, or_assoc]
    simp only [List.mem_append, or_and_right, exists_or]

theorem describes_member (kind : MemberKind) (container : ClassId) :
    d.Describes kind container (d.member kind container) where
  kind_eq := foldl_kept Member.kind (fun _ a => by cases a <;> rfl) d.contents _
  container_eq := foldl_kept Member.container (fun _ a => by cases a <;> rfl) d.contents _
  flags_eq := foldl_kept Member.flags (fun _ a => by cases a <;> rfl) d.contents _
  name_eq := foldl_kept Member.name (fun _ a => by cases a <;> rfl) d.contents _
  erasedDescriptor_eq :=
    foldl_kept Member.erasedDescriptor (fun _ a => by cases a <;> rfl) d.contents _
  descriptor_eq := by
    have h : some (d.member kind container).descriptor =
        (d.contents.filterMap MemberAttribute.signature?).getLast?.or (some d.descriptor.value) :=
      foldl_last (fun m : Member => some m.descriptor) MemberAttribute.signature?
        (fun _ a => by cases a <;> rfl) d.contents _
    rw [Option.or_some] at h
    exact Option.some.inj h
  value_eq := by
    have h (m : Member) (a : MemberAttribute pool) :
        (a.addTo m).value = a.constantValue?.or m.value := by
      cases a <;> rfl
    rw [member, foldl_last Member.value MemberAttribute.constantValue? h]
    exact Option.or_none
  markedSynthetic_eq := by
    have h (m : Member) (a : MemberAttribute pool) :
        (a.addTo m).markedSynthetic = (m.markedSynthetic || a.isSynthetic) := by
      cases a <;> first | exact (Bool.or_false _).symm | exact (Bool.or_true _).symm
    rw [member, foldl_any Member.markedSynthetic MemberAttribute.isSynthetic h]
    exact Bool.false_or _
  isDeprecated_eq := by
    have h (m : Member) (a : MemberAttribute pool) :
        (a.addTo m).isDeprecated = (m.isDeprecated || a.isDeprecated) := by
      cases a <;> first | exact (Bool.or_false _).symm | exact (Bool.or_true _).symm
    rw [member, foldl_any Member.isDeprecated MemberAttribute.isDeprecated h]
    exact Bool.false_or _
  mem_exceptions text := by
    rw [member, mem_exceptions_foldl]
    simp
  annotations_show := by
    have h (m : Member) (a : MemberAttribute pool) :
        (a.addTo m).annotations = m.annotations ++ a.labelled.map LabelledTree.text := by
      cases a with
      | annotations visible trees =>
        rw [MemberAttribute.labelled, LabelledTree.map_text_plain]
        rfl
      | typeAnnotations visible trees =>
        rw [MemberAttribute.labelled, List.map_filterMap]
        rfl
      | _ => exact (List.append_nil _).symm
    rw [member, foldl_gathered Member.annotations _ h, List.nil_append, ← List.map_flatMap]
    exact LabelledTree.forall₂_shows _
  parameterAnnotations_show := by
    have h (m : Member) (a : MemberAttribute pool) : (a.addTo m).parameterAnnotations =
        m.parameterAnnotations ++ a.parameterTrees.map (List.map AnnotationTree.text) := by
      cases a <;> first | rfl | exact (List.append_nil _).symm
    rw [member, foldl_gathered Member.parameterAnnotations _ h, List.nil_append, ← List.map_flatMap]
    refine List.forall₂_map_right_iff.2 (List.forall₂_same.2 fun trees _ => ?_)
    exact List.forall₂_map_right_iff.2 (List.forall₂_same.2 fun tree _ => tree.shows_text)
  defaultValue_shows := by
    have h (m : Member) (a : MemberAttribute pool) :
        (a.addTo m).defaultValue = (a.default?.map ElementValue.text).or m.defaultValue := by
      cases a <;> rfl
    rw [member, foldl_last Member.defaultValue _ h, ← List.map_filterMap, List.getLast?_map]
    cases (d.contents.filterMap MemberAttribute.default?).getLast? with
    | none => exact .none
    | some value => exact .some value.shows_text

end MemberLayout

end ClassAtlas
