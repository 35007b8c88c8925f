import ClassAtlas.Constant
import ClassAtlas.Proofs.Decimal.Readings
import ClassAtlas.Proofs.Text.Quoted

/-!
# Constants that are written alike

The text of a constant tells its value among the constants of its kind: a constant that is
changed is written differently, unless it was no number and is none. Strings are written on one
line, with every quote and every backslash escaped.
-/

namespace ClassAtlas.Constant

open Text

/-- Constants of the same kind. -/
inductive SameKind : Constant → Constant → Prop
  | integers (a b : Int32) : SameKind (.integer a) (.integer b)
  | floats (a b : UInt32) : SameKind (.float a) (.float b)
  | longs (a b : Int64) : SameKind (.long a) (.long b)
  | doubles (a b : UInt64) : SameKind (.double a) (.double b)
  | strings (a b : String) : SameKind (.string a) (.string b)
  | classLiterals (a b : ClassId) : SameKind (.classLiteral a) (.classLiteral b)

/-- Whether two bit patterns are the same, or neither is a number. -/
def SameBits (format : Decimal.BinaryFormat) (a b : Nat) : Prop :=
  a = b ∨ format.read a = .nan ∧ format.read b = .nan

/-- Constants of the same value: equal numbers, bit patterns that are the same unless neither is
a number, equal texts, and classes with equal ids. -/
inductive SameValue : Constant → Constant → Prop
  | integers {a b : Int32} (h : a.toInt = b.toInt) : SameValue (.integer a) (.integer b)
  | floats {a b : UInt32} (h : SameBits Decimal.binary32 a.toNat b.toNat) :
      SameValue (.float a) (.float b)
  | longs {a b : Int64} (h : a.toInt = b.toInt) : SameValue (.long a) (.long b)
  | doubles {a b : UInt64} (h : SameBits Decimal.binary64 a.toNat b.toNat) :
      SameValue (.double a) (.double b)
  | strings {a b : String} (h : a = b) : SameValue (.string a) (.string b)
  | classLiterals {a b : ClassId} (h : a == b) : SameValue (.classLiteral a) (.classLiteral b)

theorem isReadable_floatLayout : floatLayout.IsReadable where
  mark := by decide
  notANumber := ⟨'N', rfl, by decide⟩
  infinity := ⟨'I', rfl, by decide⟩
  ne := by decide

theorem renderBits_eq_iff {format : Decimal.BinaryFormat} (hformat : 2 * format.fractions ≤ 2 ^ 53)
    {a b : Nat} (ha : a < 2 * format.exponents * format.fractions)
    (hb : b < 2 * format.exponents * format.fractions) :
    renderBits format a = renderBits format b ↔ SameBits format a b := by
  rw [renderBits, renderBits, String.ofList_inj]
  exact Decimal.Layout.writeReading_eq_iff isReadable_floatLayout hformat ha hb

theorem ofList_signedDigitsOf_eq_iff {a b : Int} :
    String.ofList (Decimal.signedDigitsOf a) = String.ofList (Decimal.signedDigitsOf b) ↔
      a = b := by
  rw [String.ofList_inj, Decimal.signedDigitsOf_injective.eq_iff]

theorem render_classLiteral_eq_iff {a b : ClassId} :
    (classLiteral a).render = (classLiteral b).render ↔ a == b := by
  rw [render, render, ClassId.beq_iff_text_eq, ← String.toList_inj, ← String.toList_inj]
  simp

theorem render_eq_iff_sameValue {a b : Constant} (h : a.SameKind b) :
    a.render = b.render ↔ a.SameValue b := by
  cases h with
  | integers a b =>
    exact ofList_signedDigitsOf_eq_iff.trans ⟨.integers, fun h => by cases h; assumption⟩
  | floats a b =>
    exact (renderBits_eq_iff (by decide) a.toNat_lt b.toNat_lt).trans
      ⟨.floats, fun h => by cases h; assumption⟩
  | longs a b =>
    exact ofList_signedDigitsOf_eq_iff.trans ⟨.longs, fun h => by cases h; assumption⟩
  | doubles a b =>
    exact (renderBits_eq_iff (by decide) a.toNat_lt b.toNat_lt).trans
      ⟨.doubles, fun h => by cases h; assumption⟩
  | strings a b =>
    exact Quoted.quote_injective.eq_iff.trans ⟨.strings, fun h => by cases h; assumption⟩
  | classLiterals a b =>
    exact render_classLiteral_eq_iff.trans ⟨.classLiterals, fun h => by cases h; assumption⟩

/-- A string is written between quotes, on one line and with nothing in it that is not escaped. -/
theorem exists_isEscaped_render (text : String) :
    ∃ body, (string text).render.toList = '"' :: body ++ ['"'] ∧ Quoted.IsEscaped body ∧
      ∀ c ∈ Quoted.controls, c ∉ (string text).render.toList :=
  ⟨_, Quoted.toList_quote text, Quoted.isEscaped_flatMap_escape text.toList,
    fun _ hc => Quoted.notMem_toList_quote hc text⟩

/-- Constants of one kind are written alike exactly when they have the same value. Every string is
written between quotes, on one line and with nothing in it that is not escaped. -/
theorem render_tells_values {a b : Constant} (h : a.SameKind b) :
    (a.render = b.render ↔ a.SameValue b) ∧
      ∀ text : String, ∃ body, (string text).render.toList = '"' :: body ++ ['"'] ∧
        Quoted.IsEscaped body ∧ ∀ c ∈ Quoted.controls, c ∉ (string text).render.toList :=
  ⟨render_eq_iff_sameValue h, exists_isEscaped_render⟩

/-- The float next to a tenth is written differently. -/
theorem render_tells_values_tenth :
    (float 0x3DCCCCCD).SameKind (float 0x3DCCCCCE) ∧
      (float 0x3DCCCCCD).render ≠ (float 0x3DCCCCCE).render := by
  have hkind := SameKind.floats 0x3DCCCCCD 0x3DCCCCCE
  refine ⟨hkind, fun h => ?_⟩
  cases (render_tells_values hkind).1.1 h with
  | floats hbits =>
    rcases hbits with heq | ⟨hnan, -⟩
    · cases heq
    · cases hnan

example : (float 0x3DCCCCCD).render = "0.1" := by decide +kernel

end ClassAtlas.Constant
