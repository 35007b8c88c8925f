import Mathlib.Data.Set.List
import ClassAtlas.Proofs.Annotations.Layout
import ClassAtlas.Proofs.Decoder.Answers
import ClassAtlas.Proofs.Text.Lines

/-!
# Newlines in annotations

Which texts of a class file go into the text of an annotation or a default value as they are:
the names of types and elements, the types and names of enumeration constants, and classes.
The text is one line exactly if all of these are. Numbers are one line, and so are strings,
since they are quoted. Whatever is decoded as an annotation or a value is the text of some tree
over the constant pool, with the target and the path in front in a type annotation.
-/

namespace ClassAtlas

open Text

/-! ### Numbers -/

namespace Decimal

variable {digits : List Char}

theorem newline_notMem_digitsOf (n : Nat) : '\n' ∉ digitsOf n := by
  intro h
  have hdigit := Nat.isDigit_of_mem_toDigits (by decide) (by decide) h
  revert hdigit
  decide

theorem newline_notMem_signedDigitsOf (n : Int) : '\n' ∉ signedDigitsOf n := by
  cases n with
  | ofNat n => exact newline_notMem_digitsOf n
  | negSucc n => simp [signedDigitsOf, newline_notMem_digitsOf]

theorem newline_notMem_fractionOf (h : '\n' ∉ digits) : '\n' ∉ fractionOf digits := by
  unfold fractionOf
  split <;> simp [h]

namespace Layout

theorem newline_notMem_plain (h : '\n' ∉ digits) (whole : Int) : '\n' ∉ plain digits whole := by
  unfold plain
  split
  · have hfront : '\n' ∉ digits ++ List.replicate (whole.toNat - digits.length) '0' := by
      simp [h]
    have hbehind : '\n' ∉ digits.drop whole.toNat := fun hmem => h (List.mem_of_mem_drop hmem)
    rw [List.mem_append, not_or]
    exact ⟨fun hmem => hfront (List.mem_of_mem_take hmem), newline_notMem_fractionOf hbehind⟩
  · have hzeros : '\n' ∉ List.replicate (-whole).toNat '0' ++ digits := by simp [h]
    simp [newline_notMem_fractionOf hzeros]

theorem newline_notMem_scientific {l : Layout} (hmark : l.exponentMark ≠ '\n') (h : '\n' ∉ digits)
    (power : Int) : '\n' ∉ l.scientific digits power := by
  have hfirst : '\n' ∉ digits.take 1 := fun hmem => h (List.mem_of_mem_take hmem)
  have hothers : '\n' ∉ digits.drop 1 := fun hmem => h (List.mem_of_mem_drop hmem)
  simp only [scientific, List.mem_append, List.mem_cons, not_or]
  exact ⟨⟨hfirst, newline_notMem_fractionOf hothers⟩, hmark.symm,
    newline_notMem_signedDigitsOf power⟩

theorem newline_notMem_signed {text : List Char} (negative : Bool) (h : '\n' ∉ text) :
    '\n' ∉ signed negative text := by
  unfold signed
  split <;> simp [h]

theorem newline_notMem_writeReading {l : Layout} (hmark : l.exponentMark ≠ '\n')
    (hnan : '\n' ∉ l.notANumber) (hinfinity : '\n' ∉ l.infinity) (r : Reading) :
    '\n' ∉ l.writeReading r := by
  cases r with
  | nan => exact hnan
  | infinite negative => exact newline_notMem_signed negative hinfinity
  | zero negative => exact newline_notMem_signed negative (by decide)
  | finite negative value =>
    refine newline_notMem_signed negative ?_
    unfold write
    dsimp only
    split
    · exact newline_notMem_plain (newline_notMem_digitsOf _) _
    · exact newline_notMem_scientific hmark (newline_notMem_digitsOf _) _

end Layout

end Decimal

namespace Constant

/-- The texts of a class file that are shown of a literal as they are. -/
def bareTexts : Constant → List String
  | classLiteral id => [id.text]
  | _ => []

theorem isOneLine_renderBits (format : Decimal.BinaryFormat) (bits : Nat) :
    IsOneLine (renderBits format bits) := by
  rw [renderBits, isOneLine_ofList]
  exact Decimal.Layout.newline_notMem_writeReading (by decide) (by decide) (by decide) _

theorem isOneLine_render_iff (value : Constant) :
    IsOneLine value.render ↔ ∀ text ∈ value.bareTexts, IsOneLine text := by
  cases value with
  | integer value => simp [render, bareTexts, Decimal.newline_notMem_signedDigitsOf]
  | float bits => simp [render, bareTexts, isOneLine_renderBits]
  | long value => simp [render, bareTexts, Decimal.newline_notMem_signedDigitsOf]
  | double bits => simp [render, bareTexts, isOneLine_renderBits]
  | string value => simp [render, bareTexts, isOneLine_quote]
  | classLiteral id =>
    simp +decide [render, bareTexts]

end Constant

/-! ### Trees -/

variable {pool : ConstantPool}

mutual

/-- The texts of a class file that are shown of a value as they are. -/
def ElementValue.bareTexts : ElementValue pool → List String
  | .constant _ value => value.value.bareTexts
  | .classInfo descriptor => [descriptor.value]
  | .string _ => []
  | .enumeration type name => [type.value, name.value]
  | .nested tree => tree.bareTexts
  | .array values => valuesBareTexts values

def AnnotationTree.bareTexts : AnnotationTree pool → List String
  | .mk type elements => type.value :: elementsBareTexts elements

def AnnotationElement.bareTexts : AnnotationElement pool → List String
  | .mk name value => name.value :: value.bareTexts

def valuesBareTexts : List (ElementValue pool) → List String
  | [] => []
  | value :: rest => value.bareTexts ++ valuesBareTexts rest

def elementsBareTexts : List (AnnotationElement pool) → List String
  | [] => []
  | element :: rest => element.bareTexts ++ elementsBareTexts rest

end

theorem Annotations.isOneLine_listed {texts : List String} :
    IsOneLine (listed texts) ↔ ∀ text ∈ texts, IsOneLine text :=
  isOneLine_intercalate (by decide)

/-- The order in which the elements are written does not matter to it. -/
theorem Annotations.isOneLine_written {type : String} {elements : List String} :
    IsOneLine (written type elements) ↔
      IsOneLine type ∧ ∀ element ∈ elements, IsOneLine element := by
  simp +decide [written, isOneLine_listed]

mutual

theorem ElementValue.isOneLine_text_iff : (value : ElementValue pool) →
    (IsOneLine value.text ↔ ∀ text ∈ value.bareTexts, IsOneLine text)
  | .constant _ value => by
    rw [ElementValue.text, ElementValue.bareTexts, Constant.isOneLine_render_iff]
  | .classInfo descriptor => by simp [ElementValue.text, ElementValue.bareTexts]
  | .string value => by simp [ElementValue.text, ElementValue.bareTexts, isOneLine_quote]
  | .enumeration type name => by
    simp +decide [ElementValue.text, ElementValue.bareTexts]
  | .nested tree => by
    rw [ElementValue.text, ElementValue.bareTexts, tree.isOneLine_text_iff]
  | .array values => by
    rw [ElementValue.text, ElementValue.bareTexts, isOneLine_append, isOneLine_append,
      Annotations.isOneLine_listed, isOneLine_valuesTexts_iff values]
    simp +decide

theorem AnnotationTree.isOneLine_text_iff : (tree : AnnotationTree pool) →
    (IsOneLine tree.text ↔ ∀ text ∈ tree.bareTexts, IsOneLine text)
  | .mk type elements => by
    rw [AnnotationTree.text, AnnotationTree.bareTexts, Annotations.isOneLine_written,
      isOneLine_elementsTexts_iff elements, List.forall_mem_cons]

theorem AnnotationElement.isOneLine_text_iff : (element : AnnotationElement pool) →
    (IsOneLine element.text ↔ ∀ text ∈ element.bareTexts, IsOneLine text)
  | .mk name value => by
    rw [AnnotationElement.text, AnnotationElement.bareTexts, isOneLine_append, isOneLine_append,
      value.isOneLine_text_iff, List.forall_mem_cons]
    simp +decide

theorem isOneLine_valuesTexts_iff : (values : List (ElementValue pool)) →
    ((∀ text ∈ valuesTexts values, IsOneLine text) ↔
      ∀ text ∈ valuesBareTexts values, IsOneLine text)
  | [] => by simp [valuesTexts, valuesBareTexts]
  | value :: rest => by
    rw [valuesTexts, valuesBareTexts, List.forall_mem_cons, List.forall_mem_append,
      value.isOneLine_text_iff, isOneLine_valuesTexts_iff rest]

theorem isOneLine_elementsTexts_iff : (elements : List (AnnotationElement pool)) →
    ((∀ text ∈ elementsTexts elements, IsOneLine text) ↔
      ∀ text ∈ elementsBareTexts elements, IsOneLine text)
  | [] => by simp [elementsTexts, elementsBareTexts]
  | element :: rest => by
    rw [elementsTexts, elementsBareTexts, List.forall_mem_cons, List.forall_mem_append,
      element.isOneLine_text_iff, isOneLine_elementsTexts_iff rest]

end

/-! ### What is decoded -/

/-- A value with the line that stands in front of it where it is that of a type annotation. -/
structure ShownValue (pool : ConstantPool) where
  front : String
  oneLine : IsOneLine front
  value : ElementValue pool

namespace ShownValue

def text (v : ShownValue pool) : String :=
  v.front ++ v.value.text

def ofValue (value : ElementValue pool) : ShownValue pool where
  front := ""
  oneLine := by decide
  value := value

@[simp] theorem text_ofValue (value : ElementValue pool) : (ofValue value).text = value.text :=
  String.empty_append

theorem isOneLine_text_iff (v : ShownValue pool) :
    IsOneLine v.text ↔ ∀ text ∈ v.value.bareTexts, IsOneLine text := by
  rw [text, isOneLine_append, v.value.isOneLine_text_iff]
  simp [v.oneLine]

end ShownValue

theorem ConstantPool.answers_readText (pool : ConstantPool) :
    Answers pool.readText fun text => ∃ slot : TextSlot pool, slot.value = text := by
  refine .after fun index => ?_
  unfold textAt
  split
  · next value hvalue => exact .pure ⟨⟨index, value, hvalue⟩, rfl⟩
  · exact .throw _ _

theorem ConstantPool.answers_readConstant (pool : ConstantPool) :
    Answers pool.readConstant fun value => ∃ slot : ConstantSlot pool, slot.value = value := by
  refine .after fun index => ?_
  unfold constantAt
  split
  · next value hvalue => exact .pure ⟨⟨index, value, hvalue⟩, rfl⟩
  · exact .throw _ _

namespace Annotations

variable {d : Decoder String}

theorem exists_map_eq {α : Type} {f : α → String} {texts : List String}
    (h : ∀ text ∈ texts, ∃ a, f a = text) : ∃ shown : List α, shown.map f = texts := by
  change texts ∈ Set.range (List.map f)
  rw [Set.range_list_map]
  exact h

theorem answers_readWith (hvalue : Answers d fun text => ∃ value : ElementValue pool,
    value.text = text) :
    Answers (readWith pool d) fun text => ∃ tree : AnnotationTree pool, tree.text = text := by
  have helement : Answers (readElement pool d) fun text =>
      ∃ element : AnnotationElement pool, element.text = text := by
    refine pool.answers_readText.bind ?_
    rintro _ ⟨name, rfl⟩
    refine hvalue.map _ ?_
    rintro _ ⟨value, rfl⟩
    exact ⟨.mk name value, by rw [AnnotationElement.text]⟩
  refine pool.answers_readText.bind ?_
  rintro _ ⟨type, rfl⟩
  refine helement.counted.map _ fun texts htexts => ?_
  obtain ⟨elements, rfl⟩ := exists_map_eq htexts
  exact ⟨.mk type elements, by rw [AnnotationTree.text, elementsTexts_eq]⟩

theorem answers_readValueIn (levels : Nat) : Answers (readValueIn pool levels) fun text =>
    ∃ value : ElementValue pool, value.text = text := by
  induction levels with
  | zero => exact .throw _ _
  | succ levels ih =>
    have hconstant (type : Primitive) : Answers (do return (← pool.readConstant).render)
        fun text => ∃ value : ElementValue pool, value.text = text := by
      refine pool.answers_readConstant.map _ ?_
      rintro _ ⟨slot, rfl⟩
      exact ⟨.constant type slot, by rw [ElementValue.text]⟩
    unfold readValueIn
    refine .after fun tag => ?_
    split
    · exact hconstant .byte
    · exact hconstant .char
    · exact hconstant .double
    · exact hconstant .float
    · exact hconstant .int
    · exact hconstant .long
    · exact hconstant .short
    · exact hconstant .boolean
    · refine pool.answers_readText.mono ?_
      rintro _ ⟨descriptor, rfl⟩
      exact ⟨.classInfo descriptor, by rw [ElementValue.text]⟩
    · refine pool.answers_readText.map _ ?_
      rintro _ ⟨value, rfl⟩
      exact ⟨.string value, by rw [ElementValue.text]⟩
    · refine pool.answers_readText.bind ?_
      rintro _ ⟨type, rfl⟩
      refine pool.answers_readText.map _ ?_
      rintro _ ⟨name, rfl⟩
      exact ⟨.enumeration type name, by rw [ElementValue.text]⟩
    · refine (answers_readWith ih).mono ?_
      rintro _ ⟨tree, rfl⟩
      exact ⟨.nested tree, by rw [ElementValue.text]⟩
    · refine ih.counted.map _ fun texts htexts => ?_
      obtain ⟨values, rfl⟩ := exists_map_eq htexts
      exact ⟨.array values, by rw [ElementValue.text, valuesTexts_eq]⟩
    · exact .throw _ _

/-- Every decoded value is shown as a tree. -/
theorem answers_readValue (pool : ConstantPool) : Answers (readValue pool) fun text =>
    ∃ shown : ShownValue pool, shown.text = text := by
  refine (answers_readValueIn maxLevels).mono ?_
  rintro _ ⟨value, rfl⟩
  exact ⟨.ofValue value, ShownValue.text_ofValue value⟩

theorem answers_read (pool : ConstantPool) : Answers (Annotations.read pool) fun text =>
    ∃ shown : ShownValue pool, shown.text = text := by
  refine (answers_readWith (answers_readValueIn maxLevels)).mono ?_
  rintro _ ⟨tree, rfl⟩
  refine ⟨.ofValue (.nested tree), ?_⟩
  rw [ShownValue.text_ofValue, ElementValue.text]

/-! ### Type annotations -/

theorem isOneLine_toString (n : Nat) : IsOneLine (toString n) := by
  change IsOneLine (String.ofList (Decimal.digitsOf n))
  rw [isOneLine_ofList]
  exact Decimal.newline_notMem_digitsOf n

theorem isOneLine_u1 (n : UInt8) : IsOneLine (toString n) :=
  isOneLine_toString n.toNat

theorem isOneLine_u2 (n : UInt16) : IsOneLine (toString n) :=
  isOneLine_toString n.toNat

theorem Target.isOneLine_text? {target : Target} {shown : String} (h : target.text? = some shown) :
    IsOneLine shown := by
  cases target with
  | code => contradiction
  | typeParameter index | formalParameter index | bound parameter index =>
    obtain rfl := Option.some.inj h
    simp +decide [isOneLine_u1]
  | supertype index | thrown index =>
    obtain rfl := Option.some.inj h
    simp +decide [isOneLine_u2]
  | result | unknown =>
    obtain rfl := Option.some.inj h
    decide

theorem answers_readStep : Answers readStep IsOneLine := by
  refine .after fun kind => .after fun argument => .pure ?_
  simp +decide [isOneLine_u1]

theorem answers_readTyped? (pool : ConstantPool) : Answers (readTyped? pool) fun text? =>
    ∀ text ∈ text?, ∃ shown : ShownValue pool, shown.text = text := by
  refine .after fun target => .after fun length => ?_
  refine (answers_readStep.replicate length.toNat).bind fun steps hsteps => ?_
  refine (answers_readWith (answers_readValueIn maxLevels)).map _ ?_
  rintro _ ⟨tree, rfl⟩ text htext
  obtain ⟨front, hfront, rfl⟩ := Option.map_eq_some_iff.1 htext
  have hline : IsOneLine (front ++ String.join steps) := by
    rw [isOneLine_append, isOneLine_join]
    exact ⟨Target.isOneLine_text? hfront, hsteps⟩
  exact ⟨⟨_, hline, .nested tree⟩, by rw [ShownValue.text, ElementValue.text]⟩

theorem answers_readTypedTable (pool : ConstantPool) : Answers (readTypedTable pool) fun texts =>
    ∀ text ∈ texts, ∃ shown : ShownValue pool, shown.text = text := by
  refine (answers_readTyped? pool).counted.map _ fun texts htexts text htext => ?_
  obtain ⟨text?, hmem, htext?⟩ := List.mem_filterMap.1 htext
  exact htexts text? hmem text htext?

end Annotations

end ClassAtlas
