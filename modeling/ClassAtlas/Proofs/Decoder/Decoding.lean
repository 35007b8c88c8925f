import Mathlib.Algebra.Group.Nat.Even
import ClassAtlas.Decoder

/-!
# Decoding what was laid out

`Decodes d bytes a` says that `d` takes exactly `bytes` off the front of whatever starts with
them, and answers `a`. Each decoder has such a statement about the layout of the value it
answers, and the statements are put together as the decoders are.
-/

namespace ClassAtlas

variable {α β ι : Type}

/-- The bytes of a number, highest first, cut down to a fixed width. -/
def bytesOf : Nat → Nat → List UInt8
  | 0, _ => []
  | width + 1, n => bytesOf width (n / 256) ++ [UInt8.ofNat n]

@[simp] theorem length_bytesOf (width n : Nat) : (bytesOf width n).length = width := by
  induction width generalizing n with
  | zero => rfl
  | succ width ih => simp [bytesOf, ih]

theorem bigEndian_append_singleton (bytes : List UInt8) (b : UInt8) :
    Decoder.bigEndian (bytes ++ [b]) = Decoder.bigEndian bytes * 256 + b.toNat := by
  simp [Decoder.bigEndian]

theorem bigEndian_bytesOf {width n : Nat} (h : n < 256 ^ width) :
    Decoder.bigEndian (bytesOf width n) = n := by
  induction width generalizing n with
  | zero =>
    have hn : n = 0 := by omega
    rw [hn]
    rfl
  | succ width ih =>
    have hdiv : n / 256 < 256 ^ width := by
      rw [pow_succ] at h
      omega
    rw [bytesOf, bigEndian_append_singleton, ih hdiv, UInt8.toNat_ofNat']
    omega

def u2Bytes (n : UInt16) : List UInt8 := bytesOf 2 n.toNat

def u4Bytes (n : UInt32) : List UInt8 := bytesOf 4 n.toNat

def u8Bytes (n : UInt64) : List UInt8 := bytesOf 8 n.toNat

def tableBytes (encode : ι → List UInt8) (items : List ι) : List UInt8 :=
  u2Bytes (.ofNat items.length) ++ items.flatMap encode

def bodyBytes (body : List UInt8) : List UInt8 :=
  u4Bytes (.ofNat body.length) ++ body

def Decodes (d : Decoder α) (bytes : List UInt8) (a : α) : Prop :=
  ∀ offset rest, d ⟨offset, bytes ++ rest⟩ = .ok a ⟨offset + bytes.length, rest⟩

namespace Decodes

theorem pure (a : α) : Decodes (pure a) [] a :=
  fun _ _ => rfl

theorem bind {d : Decoder α} {f : α → Decoder β} {bytes more : List UInt8} {a : α} {b : β}
    (hd : Decodes d bytes a) (hf : Decodes (f a) more b) :
    Decodes (d >>= f) (bytes ++ more) b := by
  intro offset rest
  change EStateM.bind d f _ = _
  rw [List.append_assoc, EStateM.bind, hd]
  dsimp only
  rw [hf, List.length_append, Nat.add_assoc]

/-- There is one answer to a string of bytes. -/
theorem answer_eq {d : Decoder α} {bytes : List UInt8} {a b : α} (ha : Decodes d bytes a)
    (hb : Decodes d bytes b) : a = b := by
  have h := (ha 0 []).symm.trans (hb 0 [])
  injection h

theorem last {d : Decoder α} {f : α → Decoder β} {bytes : List UInt8} {a : α} {b : β}
    (hd : Decodes d bytes a) (hf : Decodes (f a) [] b) : Decodes (d >>= f) bytes b := by
  have h := hd.bind hf
  rwa [List.append_nil] at h

theorem after {d : Decoder α} {f : α → Decoder β} {bytes : List UInt8} {a : α} {b : β}
    (hd : Decodes d [] a) (hf : Decodes (f a) bytes b) : Decodes (d >>= f) bytes b :=
  hd.bind hf

theorem ofExcept {e : Except Error α} {a : α} (h : e = .ok a) :
    Decodes (Decoder.ofExcept e) [] a := by
  rw [h]
  exact pure a

theorem block (bytes : List UInt8) : Decodes (Decoder.block bytes.length) bytes bytes :=
  fun offset rest => Decoder.block_append offset bytes rest

theorem skip (bytes : List UInt8) : Decodes (Decoder.skip bytes.length) bytes () :=
  (block bytes).last (pure ())

theorem fixed {bytes : List UInt8} {width : Nat} (h : bytes.length = width) :
    Decodes (Decoder.fixed width) bytes bytes := by
  rw [← h]
  exact fun offset rest => Decoder.fixed_append offset bytes rest

theorem number (width : Nat) {n : Nat} (h : n < 256 ^ width) (f : Nat → α) :
    Decodes (do return f (Decoder.bigEndian (← Decoder.fixed width))) (bytesOf width n) (f n) := by
  refine (fixed (length_bytesOf width n)).last ?_
  rw [bigEndian_bytesOf h]
  exact pure (f n)

theorem u1 (n : UInt8) : Decodes Decoder.u1 [n] n := by
  have h := number 1 n.toNat_lt UInt8.ofNat
  have hbytes : bytesOf 1 n.toNat = [n] := by simp [bytesOf]
  rwa [UInt8.ofNat_toNat, hbytes] at h

theorem u2 (n : UInt16) : Decodes Decoder.u2 (u2Bytes n) n := by
  have h := number 2 n.toNat_lt UInt16.ofNat
  rwa [UInt16.ofNat_toNat] at h

theorem u4 (n : UInt32) : Decodes Decoder.u4 (u4Bytes n) n := by
  have h := number 4 n.toNat_lt UInt32.ofNat
  rwa [UInt32.ofNat_toNat] at h

theorem u8 (n : UInt64) : Decodes Decoder.u8 (u8Bytes n) n := by
  have h := number 8 n.toNat_lt UInt64.ofNat
  rwa [UInt64.ofNat_toNat] at h

theorem i4 (n : Int32) : Decodes Decoder.i4 (u4Bytes n.toUInt32) n :=
  (u4 n.toUInt32).last (pure n)

theorem i8 (n : Int64) : Decodes Decoder.i8 (u8Bytes n.toUInt64) n :=
  (u8 n.toUInt64).last (pure n)

/-- A decoder that is confined to a block may leave the end of the block alone. -/
theorem within {body : Decoder α} {bytes : List UInt8} {a : α} (h : Decodes body bytes a)
    (rest : List UInt8) :
    Decodes (Decoder.within (bytes ++ rest).length body) (bytes ++ rest) a := by
  refine (block (bytes ++ rest)).last ?_
  rw [EStateM.run, Cursor.start, h]
  exact pure a

theorem iterate {step : α → Decoder α} {encode : ι → List UInt8} {next : α → ι → α}
    (items : List ι) (h : ∀ i ∈ items, ∀ a, Decodes (step a) (encode i) (next a i)) (a : α) :
    Decodes (Decoder.iterate step items.length a) (items.flatMap encode) (items.foldl next a) := by
  induction items generalizing a with
  | nil => exact pure a
  | cons i items ih =>
    have hrest := ih (fun j hj => h j (List.mem_cons_of_mem i hj)) (next a i)
    exact (h i List.mem_cons_self a).bind hrest

theorem table {step : α → Decoder α} {encode : ι → List UInt8} {next : α → ι → α}
    (items : List ι) (hcount : items.length < 65536)
    (h : ∀ i ∈ items, ∀ a, Decodes (step a) (encode i) (next a i)) (a : α) :
    Decodes (do
      let count ← Decoder.u2
      Decoder.iterate step count.toNat a) (tableBytes encode items) (items.foldl next a) := by
  refine (u2 _).bind ?_
  rw [UInt16.toNat_ofNat_of_lt' hcount]
  exact iterate items h a

theorem replicate {item : Decoder α} {encode : ι → List UInt8} {value : ι → α} (items : List ι)
    (h : ∀ i ∈ items, Decodes item (encode i) (value i)) :
    Decodes (Decoder.replicate items.length item) (items.flatMap encode) (items.map value) := by
  have hfold : items.foldl (fun seen i => value i :: seen) [] = (items.map value).reverse := by
    rw [← List.foldl_map (f := value) (g := fun seen a => a :: seen)]
    simp
  have hstep : ∀ i ∈ items, ∀ seen,
      Decodes (do return (← item) :: seen) (encode i) (value i :: seen) :=
    fun i hi seen => (h i hi).last (pure (value i :: seen))
  refine (iterate items hstep []).last ?_
  rw [hfold, List.reverse_reverse]
  exact pure _

theorem counted {item : Decoder α} {encode : ι → List UInt8} {value : ι → α} (items : List ι)
    (hcount : items.length < 65536) (h : ∀ i ∈ items, Decodes item (encode i) (value i)) :
    Decodes (Decoder.counted item) (tableBytes encode items) (items.map value) := by
  refine (u2 _).bind ?_
  rw [UInt16.toNat_ofNat_of_lt' hcount]
  exact replicate items h

end Decodes

end ClassAtlas
