import Mathlib.Data.List.Forall2
import Mathlib.Tactic.FinCases
import Mathlib.Tactic.IntervalCases
import ClassAtlas.Proofs.Annotations.Canonical

/-!
# Type annotations

A type annotation may name any target: one of those that are defined, each with data of its own,
or one that is not, without any. However the targets are mixed, each annotation takes exactly its
own bytes, so the next one is read from where it starts. Those inside code are read like the
others, and then nothing is shown of them. What is shown of the others is the annotation, behind
its target and the path into the type.
-/

namespace ClassAtlas

variable {pool : ConstantPool}

open Annotations

/-! ### Targets -/

/-- The part of a declaration that a type annotation belongs to (JVMS 4.7.20.1). The kinds
in one constructor have data of the same form. -/
inductive TargetInfo where
  | typeParameter (kind : UInt8) (known : kind ∈ [0x00, 0x01]) (index : UInt8)
  | supertype (index : UInt16)
  | bound (kind : UInt8) (known : kind ∈ [0x11, 0x12]) (parameter index : UInt8)
  | result (kind : UInt8) (known : kind ∈ [0x13, 0x14, 0x15])
  | formalParameter (index : UInt8)
  | thrown (index : UInt16)
  | localVariable (kind : UInt8) (known : kind ∈ [0x40, 0x41])
      (ranges : List (UInt16 × UInt16 × UInt16))
  | expression (kind : UInt8) (known : kind ∈ [0x42, 0x43, 0x44, 0x45, 0x46]) (place : UInt16)
  | typeArgument (kind : UInt8) (known : kind ∈ [0x47, 0x48, 0x49, 0x4A, 0x4B]) (place : UInt16)
      (index : UInt8)

namespace TargetInfo

def rangeBytes (range : UInt16 × UInt16 × UInt16) : List UInt8 :=
  u2Bytes range.1 ++ u2Bytes range.2.1 ++ u2Bytes range.2.2

def bytes : TargetInfo → List UInt8
  | typeParameter kind _ index => [kind, index]
  | supertype index => 0x10 :: u2Bytes index
  | bound kind _ parameter index => [kind, parameter, index]
  | result kind _ => [kind]
  | formalParameter index => [0x16, index]
  | thrown index => 0x17 :: u2Bytes index
  | localVariable kind _ ranges => kind :: tableBytes rangeBytes ranges
  | expression kind _ place => kind :: u2Bytes place
  | typeArgument kind _ place index => kind :: (u2Bytes place ++ [index])

def target : TargetInfo → Target
  | typeParameter _ _ index => .typeParameter index
  | supertype index => .supertype index
  | bound _ _ parameter index => .bound parameter index
  | result _ _ => .result
  | formalParameter index => .formalParameter index
  | thrown index => .thrown index
  | localVariable _ _ _ | expression _ _ _ | typeArgument _ _ _ _ => .code

def Fits : TargetInfo → Prop
  | localVariable _ _ ranges => ranges.length < 65536
  | _ => True

theorem decodes (t : TargetInfo) (h : t.Fits) : Decodes Target.read t.bytes t.target := by
  unfold Target.read
  cases t with
  | typeParameter kind known index =>
    fin_cases known <;> exact .tagged _ ((Decodes.u1 index).last (.pure _))
  | supertype index => exact .tagged 0x10 ((Decodes.u2 index).last (.pure _))
  | bound kind known parameter index =>
    fin_cases known <;> exact .tagged _ (.tagged parameter ((Decodes.u1 index).last (.pure _)))
  | result kind known => fin_cases known <;> exact .tagged _ (.pure _)
  | formalParameter index => exact .tagged 0x16 ((Decodes.u1 index).last (.pure _))
  | thrown index => exact .tagged 0x17 ((Decodes.u2 index).last (.pure _))
  | localVariable kind known ranges =>
    have hlength : (ranges.flatMap rangeBytes).length = 6 * ranges.length := by
      clear h
      induction ranges with
      | nil => rfl
      | cons range ranges ih => simp [ih, rangeBytes, u2Bytes]; omega
    have hskip : Decodes (do
        Decoder.skip (6 * (UInt16.ofNat ranges.length).toNat)
        return Target.code) (ranges.flatMap rangeBytes) .code := by
      rw [UInt16.toNat_ofNat_of_lt' h, ← hlength]
      exact (Decodes.skip _).last (.pure _)
    fin_cases known <;> exact .tagged _ ((Decodes.u2 _).bind hskip)
  | expression kind known place =>
    fin_cases known <;> exact .tagged _ ((Decodes.skip (u2Bytes place)).last (.pure _))
  | typeArgument kind known place index =>
    fin_cases known <;> exact .tagged _ ((Decodes.skip (u2Bytes place ++ [index])).last (.pure _))

end TargetInfo

/-- The kinds of targets that are defined (JVMS 4.7.20.1). -/
def TargetInfo.kinds : List UInt8 :=
  [0x00, 0x01, 0x10, 0x11, 0x12, 0x13, 0x14, 0x15, 0x16, 0x17, 0x40, 0x41, 0x42, 0x43, 0x44, 0x45,
    0x46, 0x47, 0x48, 0x49, 0x4A, 0x4B]

/-- A defined target with its data, or another byte in place of the kind. -/
inductive AnyTarget where
  | defined (info : TargetInfo)
  | undefined (kind : UInt8) (unknown : kind ∉ TargetInfo.kinds)

namespace AnyTarget

def bytes : AnyTarget → List UInt8
  | defined info => info.bytes
  | undefined kind _ => [kind]

def Fits : AnyTarget → Prop
  | defined info => info.Fits
  | undefined _ _ => True

def kind (t : AnyTarget) : UInt8 :=
  t.bytes.headD 0

/-- What is shown in front of an annotation with this target. -/
def label : AnyTarget → String
  | defined (.typeParameter _ _ index) => s!"tvar[{index}]"
  | defined (.supertype index) => s!"super[{index}]"
  | defined (.bound _ _ parameter index) => s!"tvar[{parameter}.{index}]"
  | defined (.result _ _) => "result"
  | defined (.formalParameter index) => s!"fparam[{index}]"
  | defined (.thrown index) => s!"throws[{index}]"
  | _ => ""

/-- The target is a variable or an expression inside code. -/
def IsInCode (t : AnyTarget) : Prop :=
  0x40 ≤ t.kind ∧ t.kind ≤ 0x4B

instance (t : AnyTarget) : Decidable t.IsInCode :=
  inferInstanceAs (Decidable (_ ∧ _))

def target : AnyTarget → Target
  | defined info => info.target
  | undefined _ _ => .unknown

theorem toNat_notMem_kinds {kind : UInt8} (unknown : kind ∉ TargetInfo.kinds) :
    kind.toNat ∉ TargetInfo.kinds.map UInt8.toNat := by
  rw [List.mem_map]
  rintro ⟨known, hknown, heq⟩
  exact unknown (UInt8.toNat_inj.1 heq ▸ hknown)

theorem not_isInCode_undefined {kind : UInt8} (unknown : kind ∉ TargetInfo.kinds) :
    ¬ (undefined kind unknown).IsInCode := by
  rintro ⟨hlow, hhigh⟩
  have hlow : 0x40 ≤ kind.toNat := hlow
  have hhigh : kind.toNat ≤ 0x4B := hhigh
  have hkind := toNat_notMem_kinds unknown
  interval_cases kind.toNat <;> exact hkind (by decide)

theorem text?_target (t : AnyTarget) :
    t.target.text? = if t.IsInCode then none else some t.label := by
  cases t with
  | undefined kind unknown =>
    rw [if_neg (not_isInCode_undefined unknown)]
    rfl
  | defined info =>
    cases info with
    | typeParameter kind known index => fin_cases known <;> rfl
    | supertype index => rfl
    | bound kind known parameter index => fin_cases known <;> rfl
    | result kind known => fin_cases known <;> rfl
    | formalParameter index => rfl
    | thrown index => rfl
    | localVariable kind known ranges => fin_cases known <;> rfl
    | expression kind known place => fin_cases known <;> rfl
    | typeArgument kind known place index => fin_cases known <;> rfl

theorem decodes (t : AnyTarget) (h : t.Fits) : Decodes Target.read t.bytes t.target := by
  cases t with
  | defined info => exact info.decodes h
  | undefined kind unknown =>
    have hkind := toNat_notMem_kinds unknown
    unfold Target.read
    refine .tagged kind ?_
    split <;> first
      | exact .pure _
      | next heq => exact absurd (heq ▸ by decide) hkind

end AnyTarget

/-! ### Annotations with labels -/

/-- An annotation with what stands in front of it where it is shown. -/
structure LabelledTree (pool : ConstantPool) where
  label : String := ""
  tree : AnnotationTree pool

namespace LabelledTree

inductive Shows : LabelledTree pool → String → Prop
  | mk (label : String) {tree : AnnotationTree pool} {text : String} (h : tree.Shows text) :
    Shows ⟨label, tree⟩ (label ++ text)

def text (a : LabelledTree pool) : String :=
  a.label ++ a.tree.text

def plain (tree : AnnotationTree pool) : LabelledTree pool :=
  { tree }

theorem map_text_plain (trees : List (AnnotationTree pool)) :
    (trees.map plain).map text = trees.map AnnotationTree.text := by
  rw [List.map_map]
  exact List.map_congr_left fun tree _ => String.empty_append

theorem shows_text (a : LabelledTree pool) : a.Shows a.text :=
  .mk a.label a.tree.shows_text

theorem forall₂_shows (row : List (LabelledTree pool)) :
    List.Forall₂ Shows row (row.map text) :=
  List.forall₂_map_right_iff.2 (List.forall₂_same.2 fun a _ => a.shows_text)

end LabelledTree

structure TypeAnnotationTree (pool : ConstantPool) where
  target : AnyTarget
  /-- The kind of each step into the type and its argument. -/
  path : List (UInt8 × UInt8)
  tree : AnnotationTree pool

namespace TypeAnnotationTree

def stepBytes (step : UInt8 × UInt8) : List UInt8 := [step.1, step.2]

def stepText (step : UInt8 × UInt8) : String := s!"/{step.1}[{step.2}]"

def bytes (a : TypeAnnotationTree pool) : List UInt8 :=
  a.target.bytes ++ ([.ofNat a.path.length] ++ a.path.flatMap stepBytes ++ a.tree.bytes)

/-- The annotation behind its target and its path, unless the target lies inside code. -/
def labelled? (a : TypeAnnotationTree pool) : Option (LabelledTree pool) :=
  if a.target.IsInCode then none
  else some ⟨a.target.label ++ String.join (a.path.map stepText), a.tree⟩

def text? (a : TypeAnnotationTree pool) : Option String :=
  a.labelled?.map LabelledTree.text

theorem rel_text? (a : TypeAnnotationTree pool) :
    Option.Rel LabelledTree.Shows a.labelled? a.text? := by
  unfold text?
  cases a.labelled? with
  | none => exact .none
  | some labelled => exact .some labelled.shows_text

structure Fits (a : TypeAnnotationTree pool) : Prop where
  target : a.target.Fits
  path : a.path.length < 256
  tree : a.tree.Fits

theorem decodes_step (step : UInt8 × UInt8) : Decodes readStep (stepBytes step) (stepText step) :=
  .tagged step.1 ((Decodes.u1 step.2).last (.pure _))

theorem decodes (a : TypeAnnotationTree pool) (h : a.Fits) (hlevels : a.tree.levels ≤ maxLevels) :
    Decodes (readTyped? pool) a.bytes a.text? := by
  have hsteps := Decodes.replicate a.path fun step _ => decodes_step step
  have htree := a.tree.decodes_read hlevels h.tree
  have htext : (a.target.target.text?.map fun shown =>
      shown ++ String.join (a.path.map stepText) ++ a.tree.text) = a.text? := by
    rw [a.target.text?_target, text?, labelled?]
    split <;> rfl
  unfold readTyped?
  refine (a.target.decodes h.target).bind (.tagged _ ?_)
  rw [UInt8.toNat_ofNat_of_lt' h.path, ← htext]
  exact hsteps.bind (htree.last (.pure _))

end TypeAnnotationTree

/-! ### Rows -/

theorem decodes_typedTable (row : List (TypeAnnotationTree pool)) (hcount : row.length < 65536)
    (h : ∀ a ∈ row, a.Fits ∧ a.tree.levels ≤ maxLevels) :
    Decodes (readTypedTable pool) (tableBytes TypeAnnotationTree.bytes row)
      (row.filterMap TypeAnnotationTree.text?) := by
  have hcounted := Decodes.counted row hcount fun a ha => a.decodes (h a ha).1 (h a ha).2
  refine hcounted.last ?_
  rw [List.filterMap_map, Function.id_comp]
  exact .pure _

/-- Type annotations in a row are read one after another, each from exactly its own bytes,
whatever targets stand before it. Nothing is shown of those inside code. No value may lie inside
more than 256 others. -/
theorem decodes_typeAnnotations (row : List (TypeAnnotationTree pool))
    (h : ∀ a ∈ row, a.Fits ∧ a.tree.levels ≤ 256 + 1) :
    (∀ a ∈ row, Option.Rel LabelledTree.Shows a.labelled? a.text? ∧
        Decodes (readTyped? pool) a.bytes a.text?) ∧
      Decodes (Decoder.replicate row.length (readTyped? pool))
        (row.flatMap TypeAnnotationTree.bytes) (row.map TypeAnnotationTree.text?) ∧
      (row.length < 65536 → Decodes (readTypedTable pool)
        (tableBytes TypeAnnotationTree.bytes row)
        (row.filterMap TypeAnnotationTree.text?)) := by
  have heach : ∀ a ∈ row, Decodes (readTyped? pool) a.bytes a.text? :=
    fun a ha => a.decodes (h a ha).1 (h a ha).2
  exact ⟨fun a ha => ⟨a.rel_text?, heach a ha⟩, .replicate row heach,
    fun hcount => decodes_typedTable row hcount h⟩

def bareConstants : PoolLayout where
  items := [.text "LT;"]

/-- The annotation at a target that is not defined, at a variable with two ranges and at the
second parameter of a method. -/
def mixedRow : List (TypeAnnotationTree bareConstants.pool) :=
  let bare : AnnotationTree bareConstants.pool := .mk ⟨1, "LT;", rfl⟩ []
  [⟨.undefined 0x30 (by decide), [(2, 0)], bare⟩,
    ⟨.defined (.localVariable 0x40 (by decide) [(0, 4, 1), (6, 2, 1)]), [], bare⟩,
    ⟨.defined (.formalParameter 1), [(3, 0)], bare⟩]

theorem mixedRow_fits : ∀ a ∈ mixedRow, a.Fits ∧ a.tree.levels ≤ 256 + 1 := by
  have hfits (target : AnyTarget) (path : List (UInt8 × UInt8)) (htarget : target.Fits)
      (hpath : path.length < 256) :
      (⟨target, path, .mk ⟨1, "LT;", rfl⟩ []⟩ : TypeAnnotationTree bareConstants.pool).Fits ∧
        (.mk ⟨1, "LT;", rfl⟩ [] : AnnotationTree bareConstants.pool).levels ≤ 256 + 1 :=
    ⟨⟨htarget, hpath, ⟨by decide, trivial⟩⟩, Nat.zero_le _⟩
  have hranges : [((0 : UInt16), (4 : UInt16), (1 : UInt16)), (6, 2, 1)].length < 65536 := by decide
  refine List.forall_mem_cons.2 ⟨hfits _ _ trivial (by decide), ?_⟩
  refine List.forall_mem_cons.2 ⟨hfits _ _ hranges (by decide), ?_⟩
  exact List.forall_mem_singleton.2 (hfits _ _ trivial (by decide))

theorem decodes_typeAnnotations_mixedRow : (∀ a ∈ mixedRow, a.Fits ∧ a.tree.levels ≤ 256 + 1) ∧
    Decodes (Decoder.replicate 3 (readTyped? bareConstants.pool))
      [0x30, 1, 2, 0, 0, 1, 0, 0, 0x40, 0, 2, 0, 0, 0, 4, 0, 1, 0, 6, 0, 2, 0, 1, 0, 0, 1, 0, 0,
        0x16, 1, 1, 3, 0, 0, 1, 0, 0]
      [some "/2[0]@LT;()", none, some "fparam[1]/3[0]@LT;()"] := by
  have hbytes : mixedRow.flatMap TypeAnnotationTree.bytes =
      [0x30, 1, 2, 0, 0, 1, 0, 0, 0x40, 0, 2, 0, 0, 0, 4, 0, 1, 0, 6, 0, 2, 0, 1, 0, 0, 1, 0, 0,
        0x16, 1, 1, 3, 0, 0, 1, 0, 0] := by decide
  have htexts : mixedRow.map TypeAnnotationTree.text? =
      [some "/2[0]@LT;()", none, some "fparam[1]/3[0]@LT;()"] := by decide +kernel
  have h := (decodes_typeAnnotations mixedRow mixedRow_fits).2.1
  rw [hbytes, htexts] at h
  exact ⟨mixedRow_fits, h⟩

end ClassAtlas
