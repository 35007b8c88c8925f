import ClassAtlas.Proofs.Annotations.Lines
import ClassAtlas.Proofs.Profile.Contents

/-!
# Newlines in profiles

What a line of a profile is made of: texts of the class file that stand in it as they are, and
texts of annotations and default values. Modifiers, numbers and quoted strings add no newline,
so the line has one exactly if one of these texts has. In a decoded class file the texts of
annotations are those of trees over its constant pool, where again the names that go in as
they are decide.
-/

namespace ClassAtlas

open Text

/-- What a line of a profile is made of. -/
structure LineParts where
  /-- The texts of the class file that stand in the line as they are. -/
  bare : List String
  /-- The texts of annotations and default values. -/
  values : List String

/-- Whether each text is that of a tree over the pool. -/
def OfValues (pool : ConstantPool) (texts : List String) : Prop :=
  ∀ text ∈ texts, ∃ shown : ShownValue pool, shown.text = text

theorem ofValues_append {pool : ConstantPool} {texts others : List String} :
    OfValues pool (texts ++ others) ↔ OfValues pool texts ∧ OfValues pool others :=
  List.forall_mem_append

namespace LineParts

/-- A text of the class file goes into the line as it is. -/
inductive Shows (pool : ConstantPool) (parts : LineParts) (text : String) : Prop
  | bare (h : text ∈ parts.bare)
  | value (shown : ShownValue pool) (h : shown.text ∈ parts.values)
      (hbare : text ∈ shown.value.bareTexts)

/-- The parts of the line are one line each. -/
def AreOneLine (parts : LineParts) : Prop :=
  (∀ text ∈ parts.bare, IsOneLine text) ∧ ∀ text ∈ parts.values, IsOneLine text

theorem areOneLine_iff {pool : ConstantPool} {parts : LineParts}
    (h : OfValues pool parts.values) :
    parts.AreOneLine ↔ ∀ text, parts.Shows pool text → IsOneLine text := by
  constructor
  · rintro ⟨hbare, hvalues⟩ text (hmem | ⟨shown, hmem, hin⟩)
    · exact hbare text hmem
    · exact shown.isOneLine_text_iff.1 (hvalues shown.text hmem) text hin
  · intro hshown
    refine ⟨fun text hmem => hshown text (.bare hmem), fun text hmem => ?_⟩
    obtain ⟨shown, rfl⟩ := h text hmem
    rw [shown.isOneLine_text_iff]
    exact fun text hin => hshown text (.value shown hmem hin)

end LineParts

theorem Member.isOneLine_spaced {texts : List String} :
    IsOneLine (spaced texts) ↔ ∀ text ∈ texts, IsOneLine text := by
  rw [spaced, isOneLine_join]
  simp +decide

theorem Visibility.isOneLine_modifier? {v : Visibility} {word : String}
    (h : word ∈ v.modifier?.toList) : IsOneLine word := by
  cases v with
  | packageAccess => simp [modifier?] at h
  | publicAccess | protectedAccess | privateAccess =>
    obtain rfl := List.mem_singleton.1 h
    decide

namespace Member

/-- The texts of all annotations of a member, and that of its default value. -/
def valueTexts (m : Member) : List String :=
  m.annotations ++ (m.parameterAnnotations.flatten ++ m.defaultValue.toList)

/-- What the line of a member is made of. Some of it is shown of a method only. -/
def parts (m : Member) : LineParts where
  bare := [m.container.text, m.name, m.descriptor] ++ m.value.toList.flatMap Constant.bareTexts ++
    if m.kind = .method then m.exceptions.toList else []
  values := if m.kind = .method then m.valueTexts else m.annotations

theorem isOneLine_modifiers {m : Member} {word : String} (h : word ∈ m.modifiers) :
    IsOneLine word := by
  rcases List.mem_append.1 h with h | h
  · exact Visibility.isOneLine_modifier? h
  · obtain ⟨⟨given, shown⟩, hmem, hgiven⟩ := List.mem_filterMap.1 h
    dsimp only at hgiven
    split at hgiven
    · obtain rfl := Option.some.inj hgiven
      revert hmem
      simp +decide +contextual [or_imp]
    · contradiction

theorem isOneLine_valueSuffix (m : Member) :
    IsOneLine m.valueSuffix ↔ ∀ text ∈ m.value.toList.flatMap Constant.bareTexts, IsOneLine text := by
  unfold valueSuffix
  cases m.value with
  | none => simp +decide
  | some value => simp +decide [Constant.isOneLine_render_iff]

theorem isOneLine_thrown {names : List String} :
    IsOneLine (spaced (names.map ("^" ++ ·))) ↔ ∀ name ∈ names, IsOneLine name := by
  rw [isOneLine_spaced]
  simp +decide

theorem isOneLine_parameters {parameters : List (List String)} :
    IsOneLine (String.join (parameters.map fun texts => " +" ++ spaced texts)) ↔
      ∀ text ∈ parameters.flatten, IsOneLine text := by
  have hplus : IsOneLine " +" := by decide
  rw [isOneLine_join, List.forall_mem_map, List.forall_mem_flatten]
  simp only [isOneLine_append, hplus, true_and, isOneLine_spaced]

theorem isOneLine_line_iff (m : Member) : IsOneLine m.line ↔ m.parts.AreOneLine := by
  have hkeyword : IsOneLine m.kind.keyword := by cases m.kind <;> decide
  have hhead : IsOneLine (spaced (m.kind.keyword :: m.modifiers)) :=
    isOneLine_spaced.2 (List.forall_mem_cons.2 ⟨hkeyword, fun word => isOneLine_modifiers⟩)
  have hdot : IsOneLine "." := by decide
  have hblank : IsOneLine " " := by decide
  have hannotations := @isOneLine_spaced m.annotations
  rw [line]
  simp only [isOneLine_append, isOneLine_valueSuffix, hhead, hdot, hblank, hannotations,
    LineParts.AreOneLine, parts, valueTexts, List.forall_mem_append, List.forall_mem_cons]
  by_cases hmethod : m.kind = .method
  · simp only [if_pos hmethod, isOneLine_thrown, isOneLine_parameters, List.forall_mem_append]
    cases m.defaultValue <;> simp +decide [and_assoc]
  · simp only [if_neg hmethod]
    cases m.defaultValue <;> simp +decide [and_assoc]

end Member

namespace ClassFile

/-- What the line of a class is made of. Without a generic signature it names the superclass and
the interfaces. -/
def parts (c : ClassFile) : LineParts where
  bare := c.id.text :: match c.attributes.signature with
    | some signature => [signature]
    | none => (c.superclass.toList ++ c.interfaces).map ClassId.text
  values := c.attributes.annotations

theorem isOneLine_declaration (c : ClassFile) : IsOneLine c.declaration := by
  unfold declaration
  split_ifs <;> decide

theorem isOneLine_erasedSignature (c : ClassFile) : IsOneLine c.erasedSignature ↔
    ∀ text ∈ (c.superclass.toList ++ c.interfaces).map ClassId.text, IsOneLine text := by
  rw [erasedSignature, isOneLine_join, List.forall_mem_map, List.forall_mem_map]
  simp +decide

theorem isOneLine_line_iff (c : ClassFile) : IsOneLine c.line ↔ c.parts.AreOneLine := by
  have hblank : IsOneLine " " := by decide
  have hmodifier : (∀ word ∈ c.concealment.visibility.modifier?.toList, IsOneLine word) = True :=
    eq_true fun word => Visibility.isOneLine_modifier?
  have hsignature : IsOneLine c.signature ↔ ∀ text ∈ (match c.attributes.signature with
      | some signature => [signature]
      | none => (c.superclass.toList ++ c.interfaces).map ClassId.text), IsOneLine text := by
    unfold signature
    cases c.attributes.signature with
    | none => exact c.isOneLine_erasedSignature
    | some signature => simp
  rw [line]
  simp only [isOneLine_append, Member.isOneLine_spaced, hblank, isOneLine_declaration, hsignature,
    hmodifier, LineParts.AreOneLine, parts, List.forall_mem_append, List.forall_mem_cons]
  simp only [and_true, true_and, and_assoc]

end ClassFile

/-! ### Lines that are shown -/

/-- What a line of a profile is about. -/
inductive LineOwner where
  | ofClass (c : ClassFile)
  | ofMember (m : Member)

namespace LineOwner

def line : LineOwner → String
  | ofClass c => c.line
  | ofMember m => m.line

def parts : LineOwner → LineParts
  | ofClass c => c.parts
  | ofMember m => m.parts

theorem isOneLine_line_iff (owner : LineOwner) :
    IsOneLine owner.line ↔ owner.parts.AreOneLine := by
  cases owner with
  | ofClass c => exact c.isOneLine_line_iff
  | ofMember m => exact m.isOneLine_line_iff

end LineOwner

namespace ClassFile

/-- What a class file shows lines about, with the level of each. -/
def shownOwners (c : ClassFile) : List (LineOwner × Visibility) :=
  let hidden := c.concealment
  let methods := c.methods.filter fun m => m.name != initializerName
  let members := (c.fields ++ methods).filter fun m => !m.isSynthetic
  if hidden.anonymous || hidden.synthetic then []
  else ((.ofClass c, hidden.visibility) ::
    members.map fun m => (.ofMember m, hidden.visibility.meet m.visibility)).filter fun shown =>
      shown.2.isVisible

theorem shownLines_eq_map (c : ClassFile) :
    c.shownLines = c.shownOwners.map fun shown => (shown.1.line, shown.2) := by
  have hmap (level : Visibility) (members : List Member) :
      ((c.line, level) :: members.map fun m => (m.line, level.meet m.visibility)) =
        ((.ofClass c, level) ::
          members.map fun m => (LineOwner.ofMember m, level.meet m.visibility)).map
          fun shown => (shown.1.line, shown.2) := by
    simp [LineOwner.line]
  unfold shownLines shownOwners
  dsimp only
  split
  · rfl
  · rw [hmap, List.filter_map]
    rfl

theorem mem_of_mem_shownOwners {c : ClassFile} {owner : LineOwner} {level : Visibility}
    (h : (owner, level) ∈ c.shownOwners) :
    owner = .ofClass c ∨ ∃ m ∈ c.members, owner = .ofMember m := by
  unfold shownOwners at h
  dsimp only at h
  split at h
  · contradiction
  · rcases List.mem_cons.1 (List.mem_of_mem_filter h) with h | h
    · exact Or.inl (congrArg Prod.fst h)
    · obtain ⟨m, hm, heq⟩ := List.mem_map.1 h
      refine Or.inr ⟨m, ?_, (congrArg Prod.fst heq).symm⟩
      rcases List.mem_append.1 (List.mem_of_mem_filter hm) with hfield | hmethod
      · exact List.mem_append_left _ hfield
      · exact List.mem_append_right _ (List.mem_of_mem_filter hmethod)

/-- The texts of annotations in a class file are those of trees over its pool. -/
structure ShowsValues (c : ClassFile) : Prop where
  ofMember {m : Member} : m ∈ c.members → OfValues c.pool m.valueTexts
  ofClass : OfValues c.pool c.attributes.annotations

theorem ShowsValues.ofOwner {c : ClassFile} (h : c.ShowsValues) {owner : LineOwner}
    {level : Visibility} (howner : (owner, level) ∈ c.shownOwners) :
    OfValues c.pool owner.parts.values := by
  rcases mem_of_mem_shownOwners howner with rfl | ⟨m, hm, rfl⟩
  · exact h.ofClass
  · intro text htext
    refine h.ofMember hm text ?_
    change text ∈ if m.kind = .method then m.valueTexts else m.annotations at htext
    split at htext
    · exact htext
    · exact List.mem_append_left _ htext

end ClassFile

/-! ### What is decoded -/

variable {pool : ConstantPool}

theorem Member.values_readAttribute (pool : ConstantPool) (name : String) {m : Member}
    (hm : OfValues pool m.valueTexts) :
    Answers (m.readAttribute pool name) fun m => OfValues pool m.valueTexts := by
  rw [valueTexts, ofValues_append, ofValues_append] at hm
  obtain ⟨hshown, hparameters, hdefault⟩ := hm
  have hkept : OfValues pool m.valueTexts :=
    ofValues_append.2 ⟨hshown, ofValues_append.2 ⟨hparameters, hdefault⟩⟩
  have hmore {more : List String} (hmore : OfValues pool more) :
      OfValues pool { m with annotations := m.annotations ++ more }.valueTexts :=
    ofValues_append.2 ⟨ofValues_append.2 ⟨hshown, hmore⟩, ofValues_append.2 ⟨hparameters, hdefault⟩⟩
  have hmoreParameters {more : List (List String)} (hmore : ∀ texts ∈ more, OfValues pool texts) :
      OfValues pool
        { m with parameterAnnotations := m.parameterAnnotations ++ more }.valueTexts := by
    rw [valueTexts, List.flatten_append, ofValues_append, ofValues_append, ofValues_append]
    exact ⟨hshown, ⟨hparameters, List.forall_mem_flatten.2 hmore⟩, hdefault⟩
  have hvalue {text : String} (htext : ∃ shown : ShownValue pool, shown.text = text) :
      OfValues pool { m with defaultValue := some text }.valueTexts := by
    rw [valueTexts, ofValues_append, ofValues_append]
    exact ⟨hshown, hparameters, by simpa [OfValues] using htext⟩
  have hread := Annotations.answers_read pool
  have htable := Annotations.answers_readTypedTable pool
  unfold readAttribute
  split
  · exact .after fun _ => .pure hkept
  · exact .pure hkept
  · exact .pure hkept
  · exact .after fun _ => .pure hkept
  · exact .after fun _ => .pure hkept
  · exact hread.counted.map _ fun more => hmore
  · exact hread.counted.map _ fun more => hmore
  · exact .after fun parameters => (hread.counted.replicate _).map _ fun more => hmoreParameters
  · exact .after fun parameters => (hread.counted.replicate _).map _ fun more => hmoreParameters
  · exact htable.map _ fun more => hmore
  · exact htable.map _ fun more => hmore
  · exact (Annotations.answers_readValue pool).map _ fun text => hvalue
  · exact .pure hkept

/-- Every text of an annotation in a decoded member is that of a tree. -/
theorem Member.values_read (kind : MemberKind) (container : ClassId) (pool : ConstantPool) :
    Answers (Member.read kind container pool) fun m => OfValues pool m.valueTexts := by
  have hattribute (m : Member) (hm : OfValues pool m.valueTexts) :
      Answers (m.readNextAttribute pool) fun m => OfValues pool m.valueTexts :=
    .after fun name => .after fun length => .within (m.values_readAttribute pool name hm) length.toNat
  exact .after fun _ => .after fun _ => .after fun _ => .after fun count =>
    .iterate hattribute count.toNat (List.forall_mem_nil _)

namespace ClassAttributes

theorem values_readBody (pool : ConstantPool) (name : String) {a : ClassAttributes}
    (ha : OfValues pool a.annotations) :
    Answers (a.readBody pool name) fun a => OfValues pool a.annotations := by
  have hread := Annotations.answers_read pool
  have htable := Annotations.answers_readTypedTable pool
  unfold readBody
  split
  · exact .after fun _ => .after fun _ => .pure ha
  · exact .after fun _ => .pure ha
  · exact hread.counted.map _ fun more hmore => ofValues_append.2 ⟨ha, hmore⟩
  · exact hread.counted.map _ fun more hmore => ofValues_append.2 ⟨ha, hmore⟩
  · exact htable.map _ fun more hmore => ofValues_append.2 ⟨ha, hmore⟩
  · exact htable.map _ fun more hmore => ofValues_append.2 ⟨ha, hmore⟩
  · exact .pure ha

theorem values_read (pool : ConstantPool) :
    Answers (ClassAttributes.read pool) fun a => OfValues pool a.annotations := by
  have hattribute (a : ClassAttributes) (ha : OfValues pool a.annotations) :
      Answers (a.readNext pool) fun a => OfValues pool a.annotations :=
    .after fun name => .after fun length => .within (values_readBody pool name ha) length.toNat
  exact .after fun count => .iterate hattribute count.toNat (List.forall_mem_nil _)

end ClassAttributes

namespace ClassFile

theorem showsValues_read (expected : Option ClassId) :
    Answers (ClassFile.read expected) ShowsValues := by
  refine .after fun start => ?_
  split
  · intro _ _ _ hrefused
    contradiction
  · refine .after fun _ => .after fun _ => .after fun pool => .after fun _ => .after fun id => ?_
    refine .after fun _ => .after fun _ => .after fun _ => ?_
    refine (Member.values_read .field id pool).counted.bind fun fields hfields => ?_
    refine (Member.values_read .method id pool).counted.bind fun methods hmethods => ?_
    refine (ClassAttributes.values_read pool).map _ fun attributes hattributes => ⟨?_, hattributes⟩
    intro m hm
    exact (List.mem_append.1 hm).elim (hfields m) (hmethods m)

theorem showsValues_of_decode {expected : Option ClassId} {bytes : List UInt8} {c : ClassFile}
    (h : decode expected bytes = .ok c) : c.ShowsValues := by
  obtain ⟨stop, hread⟩ := read_of_decode h
  exact showsValues_read expected _ _ _ hread

/-- The lines that a decoded class file shows have a newline where a text has that goes into one
of them as it is. -/
theorem isOneLine_iff_of_decode {expected : Option ClassId} {bytes : List UInt8} {c : ClassFile}
    (h : decode expected bytes = .ok c) {owner : LineOwner} {level : Visibility}
    (howner : (owner, level) ∈ c.shownOwners) :
    IsOneLine owner.line ↔ ∀ text, owner.parts.Shows c.pool text → IsOneLine text := by
  rw [owner.isOneLine_line_iff,
    LineParts.areOneLine_iff ((showsValues_of_decode h).ofOwner howner)]

end ClassFile

end ClassAtlas
