import ClassAtlas.Annotations
import ClassAtlas.Proofs.ConstantPool.Layout

/-!
# Laying out annotations

Annotations and their values as trees over a constant pool, each with its bytes and its
text. A tree whose values do not nest too deeply is decoded from its bytes into its text.
-/

namespace ClassAtlas

variable {pool : ConstantPool}

mutual

/-- The value of an element (JVMS 4.7.16.1). -/
inductive ElementValue (pool : ConstantPool) where
  | constant (type : Primitive) (value : ConstantSlot pool)
  | classInfo (descriptor : TextSlot pool)
  | string (value : TextSlot pool)
  | enumeration (type name : TextSlot pool)
  | nested (tree : AnnotationTree pool)
  | array (values : List (ElementValue pool))

inductive AnnotationTree (pool : ConstantPool) where
  | mk (type : TextSlot pool) (elements : List (AnnotationElement pool))

inductive AnnotationElement (pool : ConstantPool) where
  | mk (name : TextSlot pool) (value : ElementValue pool)

end

mutual

def ElementValue.bytes : ElementValue pool → List UInt8
  | .constant type value => .ofNat type.letter.toNat :: u2Bytes value.index
  | .classInfo descriptor => 0x63 :: u2Bytes descriptor.index
  | .string value => 0x73 :: u2Bytes value.index
  | .enumeration type name => 0x65 :: (u2Bytes type.index ++ u2Bytes name.index)
  | .nested tree => 0x40 :: tree.bytes
  | .array values => 0x5B :: (u2Bytes (.ofNat values.length) ++ valuesBytes values)

def AnnotationTree.bytes : AnnotationTree pool → List UInt8
  | .mk type elements =>
    u2Bytes type.index ++ (u2Bytes (.ofNat elements.length) ++ elementsBytes elements)

def AnnotationElement.bytes : AnnotationElement pool → List UInt8
  | .mk name value => u2Bytes name.index ++ value.bytes

def valuesBytes : List (ElementValue pool) → List UInt8
  | [] => []
  | value :: rest => value.bytes ++ valuesBytes rest

def elementsBytes : List (AnnotationElement pool) → List UInt8
  | [] => []
  | element :: rest => element.bytes ++ elementsBytes rest

end

mutual

def ElementValue.text : ElementValue pool → String
  | .constant _ value => value.value.render
  | .classInfo descriptor => descriptor.value
  | .string value => Text.Quoted.quote value.value
  | .enumeration type name => type.value ++ "." ++ name.value
  | .nested tree => tree.text
  | .array values => "[" ++ Annotations.listed (valuesTexts values) ++ "]"

def AnnotationTree.text : AnnotationTree pool → String
  | .mk type elements => Annotations.written type.value (elementsTexts elements)

def AnnotationElement.text : AnnotationElement pool → String
  | .mk name value => name.value ++ "=" ++ value.text

def valuesTexts : List (ElementValue pool) → List String
  | [] => []
  | value :: rest => value.text :: valuesTexts rest

def elementsTexts : List (AnnotationElement pool) → List String
  | [] => []
  | element :: rest => element.text :: elementsTexts rest

end

mutual

/-- How many values stand one inside the other, with the outermost one. -/
def ElementValue.levels : ElementValue pool → Nat
  | .constant .. | .classInfo _ | .string _ | .enumeration .. => 1
  | .nested tree => tree.levels + 1
  | .array values => valuesLevels values + 1

def AnnotationTree.levels : AnnotationTree pool → Nat
  | .mk _ elements => elementsLevels elements

def AnnotationElement.levels : AnnotationElement pool → Nat
  | .mk _ value => value.levels

def valuesLevels : List (ElementValue pool) → Nat
  | [] => 0
  | value :: rest => max value.levels (valuesLevels rest)

def elementsLevels : List (AnnotationElement pool) → Nat
  | [] => 0
  | element :: rest => max element.levels (elementsLevels rest)

end

mutual

def ElementValue.Fits : ElementValue pool → Prop
  | .constant .. | .classInfo _ | .string _ | .enumeration .. => True
  | .nested tree => tree.Fits
  | .array values => values.length < 65536 ∧ ValuesFit values

def AnnotationTree.Fits : AnnotationTree pool → Prop
  | .mk _ elements => elements.length < 65536 ∧ ElementsFit elements

def AnnotationElement.Fits : AnnotationElement pool → Prop
  | .mk _ value => value.Fits

def ValuesFit : List (ElementValue pool) → Prop
  | [] => True
  | value :: rest => value.Fits ∧ ValuesFit rest

def ElementsFit : List (AnnotationElement pool) → Prop
  | [] => True
  | element :: rest => element.Fits ∧ ElementsFit rest

end

theorem valuesBytes_eq (values : List (ElementValue pool)) :
    valuesBytes values = values.flatMap ElementValue.bytes := by
  induction values with
  | nil => rfl
  | cons value rest ih => rw [valuesBytes, ih, List.flatMap_cons]

theorem elementsBytes_eq (elements : List (AnnotationElement pool)) :
    elementsBytes elements = elements.flatMap AnnotationElement.bytes := by
  induction elements with
  | nil => rfl
  | cons element rest ih => rw [elementsBytes, ih, List.flatMap_cons]

theorem valuesTexts_eq (values : List (ElementValue pool)) :
    valuesTexts values = values.map ElementValue.text := by
  induction values with
  | nil => rfl
  | cons value rest ih => rw [valuesTexts, ih, List.map_cons]

theorem elementsTexts_eq (elements : List (AnnotationElement pool)) :
    elementsTexts elements = elements.map AnnotationElement.text := by
  induction elements with
  | nil => rfl
  | cons element rest ih => rw [elementsTexts, ih, List.map_cons]

open Annotations

theorem decodes_constantValue (type : Primitive) (s : ConstantSlot pool) (levels : Nat) :
    Decodes (readValueIn pool (levels + 1)) (.ofNat type.letter.toNat :: u2Bytes s.index)
      s.value.render := by
  unfold readValueIn
  cases type <;> exact .tagged _ (s.decodes_constant.last (.pure _))

theorem decodes_tree {levels : Nat} {type : TextSlot pool}
    {elements : List (AnnotationElement pool)} (hcount : elements.length < 65536)
    (h : ∀ element ∈ elements,
      Decodes (readElement pool (readValueIn pool levels)) element.bytes element.text) :
    Decodes (readWith pool (readValueIn pool levels)) (AnnotationTree.mk type elements).bytes
      (AnnotationTree.mk type elements).text := by
  have hcounted := Decodes.counted elements hcount h
  rw [AnnotationTree.bytes, AnnotationTree.text, elementsBytes_eq, elementsTexts_eq]
  exact type.decodes_text.bind (hcounted.last (.pure _))

theorem decodes_array {levels : Nat} {values : List (ElementValue pool)}
    (hcount : values.length < 65536)
    (h : ∀ value ∈ values, Decodes (readValueIn pool levels) value.bytes value.text) :
    Decodes (readValueIn pool (levels + 1)) (ElementValue.array values).bytes
      (ElementValue.array values).text := by
  have hcounted := Decodes.counted values hcount h
  rw [ElementValue.bytes, ElementValue.text, valuesBytes_eq, valuesTexts_eq]
  unfold readValueIn
  exact .tagged 0x5B (hcounted.last (.pure _))

mutual

theorem ElementValue.decodes : (value : ElementValue pool) → ∀ levels, value.levels ≤ levels →
    value.Fits → Decodes (readValueIn pool levels) value.bytes value.text
  | .constant type value, levels + 1, _, _ => by
    rw [ElementValue.bytes, ElementValue.text]
    exact decodes_constantValue type value levels
  | .classInfo descriptor, levels + 1, _, _ => by
    rw [ElementValue.bytes, ElementValue.text]
    unfold readValueIn
    exact .tagged 0x63 descriptor.decodes_text
  | .string value, levels + 1, _, _ => by
    rw [ElementValue.bytes, ElementValue.text]
    unfold readValueIn
    exact .tagged 0x73 (value.decodes_text.last (.pure _))
  | .enumeration type name, levels + 1, _, _ => by
    rw [ElementValue.bytes, ElementValue.text]
    unfold readValueIn
    exact .tagged 0x65 (type.decodes_text.bind (name.decodes_text.last (.pure _)))
  | .nested tree, levels + 1, hlevels, hfits => by
    rw [ElementValue.levels] at hlevels
    rw [ElementValue.Fits] at hfits
    rw [ElementValue.bytes, ElementValue.text]
    unfold readValueIn
    exact .tagged 0x40 (tree.decodes levels (by omega) hfits)
  | .array values, levels + 1, hlevels, hfits => by
    rw [ElementValue.levels] at hlevels
    rw [ElementValue.Fits] at hfits
    exact decodes_array hfits.1 (decodes_values values levels (by omega) hfits.2)
  | .constant _ _, 0, hlevels, _ | .classInfo _, 0, hlevels, _ | .string _, 0, hlevels, _
  | .enumeration _ _, 0, hlevels, _ | .nested _, 0, hlevels, _ | .array _, 0, hlevels, _ => by
    simp [ElementValue.levels] at hlevels

theorem AnnotationTree.decodes : (tree : AnnotationTree pool) → ∀ levels, tree.levels ≤ levels →
    tree.Fits → Decodes (readWith pool (readValueIn pool levels)) tree.bytes tree.text
  | .mk type elements, levels, hlevels, hfits => by
    rw [AnnotationTree.levels] at hlevels
    rw [AnnotationTree.Fits] at hfits
    exact decodes_tree hfits.1 (decodes_elements elements levels hlevels hfits.2)

theorem AnnotationElement.decodes : (element : AnnotationElement pool) → ∀ levels,
    element.levels ≤ levels → element.Fits →
    Decodes (readElement pool (readValueIn pool levels)) element.bytes element.text
  | .mk name value, levels, hlevels, hfits => by
    rw [AnnotationElement.levels] at hlevels
    rw [AnnotationElement.Fits] at hfits
    rw [AnnotationElement.bytes, AnnotationElement.text]
    exact name.decodes_text.bind ((value.decodes levels hlevels hfits).last (.pure _))

theorem decodes_values : (values : List (ElementValue pool)) → ∀ levels,
    valuesLevels values ≤ levels → ValuesFit values → ∀ value ∈ values,
    Decodes (readValueIn pool levels) value.bytes value.text
  | [], _, _, _ => by simp
  | first :: rest, levels, hlevels, hfits => by
    rw [valuesLevels] at hlevels
    rw [ValuesFit] at hfits
    exact List.forall_mem_cons.2 ⟨first.decodes levels (by omega) hfits.1,
      decodes_values rest levels (by omega) hfits.2⟩

theorem decodes_elements : (elements : List (AnnotationElement pool)) → ∀ levels,
    elementsLevels elements ≤ levels → ElementsFit elements → ∀ element ∈ elements,
    Decodes (readElement pool (readValueIn pool levels)) element.bytes element.text
  | [], _, _, _ => by simp
  | first :: rest, levels, hlevels, hfits => by
    rw [elementsLevels] at hlevels
    rw [ElementsFit] at hfits
    exact List.forall_mem_cons.2 ⟨first.decodes levels (by omega) hfits.1,
      decodes_elements rest levels (by omega) hfits.2⟩

end

theorem AnnotationTree.decodes_read (tree : AnnotationTree pool) (hlevels : tree.levels ≤ maxLevels)
    (hfits : tree.Fits) : Decodes (Annotations.read pool) tree.bytes tree.text :=
  tree.decodes maxLevels hlevels hfits

end ClassAtlas
