import Mathlib.Data.List.Perm.Basic
import Mathlib.Logic.Relation
import ClassAtlas.Proofs.Annotations.Layout

/-!
# Canonical texts of annotations

What an annotation shows is laid down by `Shows`, piece by piece: the elements of an annotation
stand in the order of their texts, the values of an array in their own order. Every annotation
shows exactly one text, and it keeps this text when the elements of any annotation inside it
change places. So do its levels, and the reordered annotation is decoded into the same text.
-/

namespace ClassAtlas

variable {pool : ConstantPool}

/-! ### What is shown -/

mutual

inductive ElementValue.Shows : ElementValue pool → String → Prop
  | constant (type : Primitive) (value : ConstantSlot pool) :
    ElementValue.Shows (.constant type value) value.value.render
  | classInfo (descriptor : TextSlot pool) :
    ElementValue.Shows (.classInfo descriptor) descriptor.value
  | string (value : TextSlot pool) :
    ElementValue.Shows (.string value) (Text.Quoted.quote value.value)
  | enumeration (type name : TextSlot pool) :
    ElementValue.Shows (.enumeration type name) (type.value ++ "." ++ name.value)
  | nested {tree : AnnotationTree pool} {text : String} (h : tree.Shows text) :
    ElementValue.Shows (.nested tree) text
  | array {values : List (ElementValue pool)} {texts : List String} (h : ValuesShow values texts) :
    ElementValue.Shows (.array values) ("[" ++ ",".intercalate texts ++ "]")

inductive AnnotationTree.Shows : AnnotationTree pool → String → Prop
  | mk (type : TextSlot pool) {elements : List (AnnotationElement pool)}
      {texts sorted : List String} (h : ElementsShow elements texts) (hperm : sorted.Perm texts)
      (hsorted : sorted.Pairwise (· ≤ ·)) :
    AnnotationTree.Shows (.mk type elements)
      ("@" ++ type.value ++ "(" ++ ",".intercalate sorted ++ ")")

inductive AnnotationElement.Shows : AnnotationElement pool → String → Prop
  | mk (name : TextSlot pool) {value : ElementValue pool} {text : String} (h : value.Shows text) :
    AnnotationElement.Shows (.mk name value) (name.value ++ "=" ++ text)

inductive ValuesShow : List (ElementValue pool) → List String → Prop
  | nil : ValuesShow [] []
  | cons {value : ElementValue pool} {rest : List (ElementValue pool)} {text : String}
      {texts : List String} (hfirst : value.Shows text) (hrest : ValuesShow rest texts) :
    ValuesShow (value :: rest) (text :: texts)

inductive ElementsShow : List (AnnotationElement pool) → List String → Prop
  | nil : ElementsShow [] []
  | cons {element : AnnotationElement pool} {rest : List (AnnotationElement pool)} {text : String}
      {texts : List String} (hfirst : element.Shows text) (hrest : ElementsShow rest texts) :
    ElementsShow (element :: rest) (text :: texts)

end

namespace Annotations

theorem sorted_perm (texts : List String) :
    (texts.mergeSort fun a b => a ≤ b).Perm texts :=
  List.mergeSort_perm texts _

theorem sorted_pairwise (texts : List String) :
    (texts.mergeSort fun a b => a ≤ b).Pairwise (· ≤ ·) := by
  have h : (texts.mergeSort fun a b => a ≤ b).Pairwise fun a b => decide (a ≤ b) = true := by
    apply List.pairwise_mergeSort
    · intro a b c hab hbc
      simp only [decide_eq_true_eq] at hab hbc ⊢
      exact String.le_trans hab hbc
    · intro a b
      simpa using String.le_total a b
  simpa using h

theorem eq_of_perm_of_sorted {texts others : List String} (hperm : texts.Perm others)
    (htexts : texts.Pairwise (· ≤ ·)) (hothers : others.Pairwise (· ≤ ·)) : texts = others :=
  hperm.eq_of_pairwise (fun _ _ _ _ => String.le_antisymm) htexts hothers

theorem written_eq (type : String) {texts sorted : List String} (hperm : sorted.Perm texts)
    (hsorted : sorted.Pairwise (· ≤ ·)) :
    written type texts = "@" ++ type ++ "(" ++ ",".intercalate sorted ++ ")" := by
  have h := eq_of_perm_of_sorted ((sorted_perm texts).trans hperm.symm) (sorted_pairwise texts)
    hsorted
  rw [written, listed, h]

theorem written_of_perm (type : String) {texts others : List String} (h : texts.Perm others) :
    written type others = written type texts :=
  written_eq type ((sorted_perm texts).trans h) (sorted_pairwise texts)

end Annotations

open Annotations

mutual

theorem ElementValue.shows_text : (value : ElementValue pool) → value.Shows value.text
  | .constant type value => .constant type value
  | .classInfo descriptor => .classInfo descriptor
  | .string value => .string value
  | .enumeration type name => .enumeration type name
  | .nested tree => .nested tree.shows_text
  | .array values => .array (valuesShow_texts values)

theorem AnnotationTree.shows_text : (tree : AnnotationTree pool) → tree.Shows tree.text
  | .mk type elements =>
    .mk type (elementsShow_texts elements) (sorted_perm _) (sorted_pairwise _)

theorem AnnotationElement.shows_text : (element : AnnotationElement pool) →
    element.Shows element.text
  | .mk name value => .mk name value.shows_text

theorem valuesShow_texts : (values : List (ElementValue pool)) →
    ValuesShow values (valuesTexts values)
  | [] => .nil
  | value :: rest => .cons value.shows_text (valuesShow_texts rest)

theorem elementsShow_texts : (elements : List (AnnotationElement pool)) →
    ElementsShow elements (elementsTexts elements)
  | [] => .nil
  | element :: rest => .cons element.shows_text (elementsShow_texts rest)

end

mutual

/-- A value shows nothing but its text. -/
theorem ElementValue.Shows.eq_text : {value : ElementValue pool} → {text : String} →
    value.Shows text → text = value.text
  | _, _, .constant _ _ | _, _, .classInfo _ | _, _, .string _ | _, _, .enumeration _ _ => rfl
  | _, _, .nested h => h.eq_text
  | _, _, .array h => by rw [h.eq_texts, ElementValue.text, listed]

theorem AnnotationTree.Shows.eq_text : {tree : AnnotationTree pool} → {text : String} →
    tree.Shows text → text = tree.text
  | _, _, .mk type h hperm hsorted => by
    rw [AnnotationTree.text, written_eq type.value (h.eq_texts ▸ hperm) hsorted]

theorem AnnotationElement.Shows.eq_text : {element : AnnotationElement pool} → {text : String} →
    element.Shows text → text = element.text
  | _, _, .mk name h => by rw [h.eq_text, AnnotationElement.text]

theorem ValuesShow.eq_texts : {values : List (ElementValue pool)} → {texts : List String} →
    ValuesShow values texts → texts = valuesTexts values
  | _, _, .nil => rfl
  | _, _, .cons hfirst hrest => by rw [hfirst.eq_text, hrest.eq_texts, valuesTexts]

theorem ElementsShow.eq_texts : {elements : List (AnnotationElement pool)} →
    {texts : List String} → ElementsShow elements texts → texts = elementsTexts elements
  | _, _, .nil => rfl
  | _, _, .cons hfirst hrest => by rw [hfirst.eq_text, hrest.eq_texts, elementsTexts]

end

theorem AnnotationTree.shows_iff (tree : AnnotationTree pool) (shown : String) :
    tree.Shows shown ↔ shown = tree.text := by
  constructor
  · exact AnnotationTree.Shows.eq_text
  · rintro rfl
    exact tree.shows_text

theorem ElementValue.shows_iff (value : ElementValue pool) (shown : String) :
    value.Shows shown ↔ shown = value.text := by
  constructor
  · exact ElementValue.Shows.eq_text
  · rintro rfl
    exact value.shows_text

/-! ### Elements that change places -/

mutual

/-- One annotation inside the value has its elements in another order. -/
inductive ElementValue.Reorders : ElementValue pool → ElementValue pool → Prop
  | nested {tree other : AnnotationTree pool} (h : tree.Reorders other) :
    ElementValue.Reorders (.nested tree) (.nested other)
  | array (front behind : List (ElementValue pool)) {value other : ElementValue pool}
      (h : value.Reorders other) :
    ElementValue.Reorders (.array (front ++ value :: behind)) (.array (front ++ other :: behind))

inductive AnnotationTree.Reorders : AnnotationTree pool → AnnotationTree pool → Prop
  | here (type : TextSlot pool) {elements others : List (AnnotationElement pool)}
      (h : elements.Perm others) : AnnotationTree.Reorders (.mk type elements) (.mk type others)
  | inside (type : TextSlot pool) (front behind : List (AnnotationElement pool))
      {element other : AnnotationElement pool} (h : element.Reorders other) :
    AnnotationTree.Reorders (.mk type (front ++ element :: behind))
      (.mk type (front ++ other :: behind))

inductive AnnotationElement.Reorders : AnnotationElement pool → AnnotationElement pool → Prop
  | mk (name : TextSlot pool) {value other : ElementValue pool} (h : value.Reorders other) :
    AnnotationElement.Reorders (.mk name value) (.mk name other)

end

mutual

theorem ElementValue.Reorders.text_eq : {value other : ElementValue pool} →
    value.Reorders other → other.text = value.text
  | _, _, .nested h => by rw [ElementValue.text, ElementValue.text, h.text_eq]
  | _, _, .array front behind h => by
    simp only [ElementValue.text, valuesTexts_eq, List.map_append, List.map_cons, h.text_eq]

theorem AnnotationTree.Reorders.text_eq : {tree other : AnnotationTree pool} →
    tree.Reorders other → other.text = tree.text
  | _, _, .here type h => by
    simp only [AnnotationTree.text, elementsTexts_eq]
    exact written_of_perm type.value (h.map AnnotationElement.text)
  | _, _, .inside type front behind h => by
    simp only [AnnotationTree.text, elementsTexts_eq, List.map_append, List.map_cons, h.text_eq]

theorem AnnotationElement.Reorders.text_eq : {element other : AnnotationElement pool} →
    element.Reorders other → other.text = element.text
  | _, _, .mk name h => by rw [AnnotationElement.text, AnnotationElement.text, h.text_eq]

end

/-! Levels and counts stay, too. -/

theorem valuesLevels_eq (values : List (ElementValue pool)) :
    valuesLevels values = (values.map ElementValue.levels).foldr max 0 := by
  induction values with
  | nil => rfl
  | cons value rest ih => rw [valuesLevels, ih, List.map_cons, List.foldr_cons]

theorem elementsLevels_eq (elements : List (AnnotationElement pool)) :
    elementsLevels elements = (elements.map AnnotationElement.levels).foldr max 0 := by
  induction elements with
  | nil => rfl
  | cons element rest ih => rw [elementsLevels, ih, List.map_cons, List.foldr_cons]

theorem valuesFit_iff (values : List (ElementValue pool)) :
    ValuesFit values ↔ ∀ value ∈ values, value.Fits := by
  induction values with
  | nil => simp [ValuesFit]
  | cons value rest ih => rw [ValuesFit, ih, List.forall_mem_cons]

theorem elementsFit_iff (elements : List (AnnotationElement pool)) :
    ElementsFit elements ↔ ∀ element ∈ elements, element.Fits := by
  induction elements with
  | nil => simp [ElementsFit]
  | cons element rest ih => rw [ElementsFit, ih, List.forall_mem_cons]

mutual

theorem ElementValue.Reorders.levels_eq : {value other : ElementValue pool} →
    value.Reorders other → other.levels = value.levels
  | _, _, .nested h => by rw [ElementValue.levels, ElementValue.levels, h.levels_eq]
  | _, _, .array front behind h => by
    simp only [ElementValue.levels, valuesLevels_eq, List.map_append, List.map_cons, h.levels_eq]

theorem AnnotationTree.Reorders.levels_eq : {tree other : AnnotationTree pool} →
    tree.Reorders other → other.levels = tree.levels
  | _, _, .here type h => by
    simp only [AnnotationTree.levels, elementsLevels_eq]
    exact ((h.map AnnotationElement.levels).foldr_eq 0).symm
  | _, _, .inside type front behind h => by
    simp only [AnnotationTree.levels, elementsLevels_eq, List.map_append, List.map_cons,
      h.levels_eq]

theorem AnnotationElement.Reorders.levels_eq : {element other : AnnotationElement pool} →
    element.Reorders other → other.levels = element.levels
  | _, _, .mk name h => by rw [AnnotationElement.levels, AnnotationElement.levels, h.levels_eq]

end

mutual

theorem ElementValue.Reorders.fits : {value other : ElementValue pool} →
    value.Reorders other → value.Fits → other.Fits
  | _, _, .nested h => by
    rw [ElementValue.Fits, ElementValue.Fits]
    exact h.fits
  | _, _, .array front behind h => by
    simp only [ElementValue.Fits, valuesFit_iff, List.forall_mem_append, List.forall_mem_cons,
      List.length_append, List.length_cons]
    rintro ⟨hcount, hfront, hvalue, hbehind⟩
    exact ⟨hcount, hfront, h.fits hvalue, hbehind⟩

theorem AnnotationTree.Reorders.fits : {tree other : AnnotationTree pool} →
    tree.Reorders other → tree.Fits → other.Fits
  | _, _, .here type h => by
    simp only [AnnotationTree.Fits, elementsFit_iff]
    rintro ⟨hcount, hall⟩
    exact ⟨h.length_eq ▸ hcount, fun element hmem => hall element (h.mem_iff.2 hmem)⟩
  | _, _, .inside type front behind h => by
    simp only [AnnotationTree.Fits, elementsFit_iff, List.forall_mem_append, List.forall_mem_cons,
      List.length_append, List.length_cons]
    rintro ⟨hcount, hfront, helement, hbehind⟩
    exact ⟨hcount, hfront, h.fits helement, hbehind⟩

theorem AnnotationElement.Reorders.fits : {element other : AnnotationElement pool} →
    element.Reorders other → element.Fits → other.Fits
  | _, _, .mk name h => by
    rw [AnnotationElement.Fits, AnnotationElement.Fits]
    exact h.fits

end

/-! ### Rows of such changes -/

open Relation

/-- What is read through steps that leave the text and the levels as they are. -/
theorem reads_along_steps {α : Type} {step : α → α → Prop} {text : α → String}
    {levels : α → Nat} {fits : α → Prop} {shows : α → String → Prop} {bytes : α → List UInt8}
    {d : Decoder String} {bound : Nat}
    (hstep : ∀ a b, step a b → text b = text a ∧ levels b = levels a ∧ (fits a → fits b))
    (hshows : ∀ a shown, shows a shown ↔ shown = text a)
    (hdecodes : ∀ a, levels a ≤ bound → fits a → Decodes d (bytes a) (text a))
    {a : α} (hlevels : levels a ≤ bound) (hfits : fits a) :
    ∃ found, (∀ shown, shows a shown ↔ shown = found) ∧ Decodes d (bytes a) found ∧
      ∀ b, ReflTransGen step a b → shows b found ∧ Decodes d (bytes b) found := by
  refine ⟨text a, hshows a, hdecodes a hlevels hfits, ?_⟩
  intro b hsteps
  have hall : text b = text a ∧ levels b = levels a ∧ fits b := by
    induction hsteps with
    | refl => exact ⟨rfl, rfl, hfits⟩
    | tail _ hlast ih =>
      obtain ⟨htext, hsame, hfit⟩ := ih
      obtain ⟨htext', hsame', hfit'⟩ := hstep _ _ hlast
      exact ⟨htext'.trans htext, hsame'.trans hsame, hfit' hfit⟩
  obtain ⟨htext, hsame, hfit⟩ := hall
  rw [← htext]
  exact ⟨(hshows b _).2 rfl, hdecodes b (hsame ▸ hlevels) hfit⟩

/-- An annotation, and a value, shows one text. It is read from the bytes, whatever stands
behind them, and from the bytes of everything that comes of the annotation when elements change
places inside it. No value may lie inside more than 256 others. -/
theorem decodes_reordered (pool : ConstantPool) :
    (∀ tree : AnnotationTree pool, tree.levels ≤ 256 + 1 → tree.Fits →
      ∃ text, (∀ shown, tree.Shows shown ↔ shown = text) ∧
        Decodes (Annotations.read pool) tree.bytes text ∧
        ∀ other, ReflTransGen AnnotationTree.Reorders tree other →
          other.Shows text ∧ Decodes (Annotations.read pool) other.bytes text) ∧
    ∀ value : ElementValue pool, value.levels ≤ 256 + 1 → value.Fits →
      ∃ text, (∀ shown, value.Shows shown ↔ shown = text) ∧
        Decodes (Annotations.readValue pool) value.bytes text ∧
        ∀ other, ReflTransGen ElementValue.Reorders value other →
          other.Shows text ∧ Decodes (Annotations.readValue pool) other.bytes text := by
  constructor
  · intro tree
    apply reads_along_steps
    · exact fun _ _ h => ⟨h.text_eq, h.levels_eq, h.fits⟩
    · exact AnnotationTree.shows_iff
    · exact AnnotationTree.decodes_read
  · intro value
    apply reads_along_steps
    · exact fun _ _ h => ⟨h.text_eq, h.levels_eq, h.fits⟩
    · exact ElementValue.shows_iff
    · exact fun value => value.decodes maxLevels

def markConstants : PoolLayout where
  items := [.text "LT;", .text "x", .text "A", .integer 7, .text "B"]

def markLabel : AnnotationElement markConstants.pool :=
  .mk ⟨3, "A", rfl⟩ (.string ⟨5, "B", rfl⟩)

/-- An annotation with a value of `x` and with the label, in the one or the other order. -/
def mark (value : ElementValue markConstants.pool) (swapped : Bool) :
    AnnotationTree markConstants.pool :=
  let x : AnnotationElement markConstants.pool := .mk ⟨2, "x", rfl⟩ value
  .mk ⟨1, "LT;", rfl⟩ (if swapped then [markLabel, x] else [x, markLabel])

/-- The annotation with another one of its kind inside. -/
def nestedMark (inner outer : Bool) : AnnotationTree markConstants.pool :=
  mark (.array [.nested (mark (.constant .int ⟨4, .integer 7, rfl⟩) inner)]) outer

theorem shows_mark {value : ElementValue markConstants.pool} {text : String}
    (h : value.Shows text) (hsorted : "A=\"B\"" ≤ "x=" ++ text) :
    (mark value false).Shows ("@LT;(A=\"B\",x=" ++ text ++ ")") := by
  have hlabel : markLabel.Shows ("A" ++ "=" ++ Text.Quoted.quote "B") := .mk _ (.string _)
  have hquoted : "A" ++ "=" ++ Text.Quoted.quote "B" = "A=\"B\"" := by decide
  rw [hquoted] at hlabel
  have hjoined : "@" ++ "LT;" ++ "(" ++ ",".intercalate ["A=\"B\"", "x=" ++ text] ++ ")" =
      "@LT;(A=\"B\",x=" ++ text ++ ")" := by
    apply String.toList_inj.1
    simp
  rw [← hjoined]
  exact .mk _ (.cons (.mk _ h) (.cons hlabel .nil)) (.swap _ _ []) (by simpa using hsorted)

theorem reorders_nestedMark :
    ReflTransGen AnnotationTree.Reorders (nestedMark false false) (nestedMark true true) := by
  have hinner : (nestedMark false false).Reorders (nestedMark true false) :=
    .inside _ [] _ (.mk _ (.array [] [] (.nested (.here _ (.swap _ _ [])))))
  have houter : (nestedMark true false).Reorders (nestedMark true true) :=
    .here _ (.swap _ _ [])
  exact .tail (.single hinner) houter

/-- The label may stand behind or before `x`, in the annotation and in the one inside it. -/
theorem decodes_reordered_nestedMark :
    Decodes (Annotations.read markConstants.pool) (nestedMark false false).bytes
        "@LT;(A=\"B\",x=[@LT;(A=\"B\",x=7)])" ∧
      Decodes (Annotations.read markConstants.pool) (nestedMark true true).bytes
        "@LT;(A=\"B\",x=[@LT;(A=\"B\",x=7)])" := by
  have hseven : (.constant .int ⟨4, .integer 7, rfl⟩ : ElementValue markConstants.pool).Shows "7" :=
    .constant _ _
  have hinner := shows_mark hseven (by decide)
  have houter := shows_mark (.array (.cons (.nested hinner) .nil)) (by decide)
  have hfits : (nestedMark false false).Fits := by
    simp [nestedMark, mark, markLabel, AnnotationTree.Fits, ElementsFit, AnnotationElement.Fits,
      ElementValue.Fits, ValuesFit]
  obtain ⟨text, hshows, hdecodes, hreordered⟩ :=
    (decodes_reordered markConstants.pool).1 (nestedMark false false) (by decide) hfits
  have htext := (hshows _).1 houter
  rw [← htext] at hdecodes hreordered
  exact ⟨hdecodes, (hreordered _ reorders_nestedMark).2⟩

end ClassAtlas
