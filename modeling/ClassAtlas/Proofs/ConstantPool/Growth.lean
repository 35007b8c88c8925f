import ClassAtlas.ClassFile
import ClassAtlas.Proofs.ConstantPool.Resolution
import ClassAtlas.Proofs.Decoder.Refinement

/-!
# Growing constant pools

Entries may be added behind those of a pool. What is found in the pool is found in the larger
one, at the same slots, and so every decoder that looks things up in the pool answers with the
larger one what it answers with the smaller.
-/

namespace ClassAtlas

namespace ConstantPool

/-- What is found in the one pool is found in the other. -/
def Extends (pool larger : ConstantPool) : Prop :=
  ∀ index entry, pool.get? index = some entry → larger.get? index = some entry

namespace Extends

variable {pool larger : ConstantPool} (h : pool.Extends larger)

include h

theorem textAt {index : UInt16} {text : String} (htext : pool.textAt index = .ok text) :
    larger.textAt index = .ok text := by
  unfold ConstantPool.textAt at htext
  split at htext
  · next value hentry =>
    obtain rfl := Except.ok.inj htext
    rw [ConstantPool.textAt, h index _ hentry]
  · contradiction

theorem classAt {index : UInt16} {id : ClassId} (hid : pool.classAt index = .ok id) :
    larger.classAt index = .ok id := by
  unfold ConstantPool.classAt at hid
  split at hid
  · next value hentry =>
    obtain rfl := Except.ok.inj hid
    rw [ConstantPool.classAt, h index _ hentry]
  · contradiction

theorem constantAt {index : UInt16} {value : Constant}
    (hvalue : pool.constantAt index = .ok value) : larger.constantAt index = .ok value := by
  unfold ConstantPool.constantAt at hvalue
  split at hvalue
  · next found hentry =>
    obtain rfl := Except.ok.inj hvalue
    rw [ConstantPool.constantAt, h index _ hentry]
  · contradiction

theorem readText : Refines pool.readText larger.readText :=
  .next fun _ => .ofExcept fun _ => h.textAt

theorem readClass : Refines pool.readClass larger.readClass :=
  .next fun _ => .ofExcept fun _ => h.classAt

theorem readConstant : Refines pool.readConstant larger.readConstant :=
  .next fun _ => .ofExcept fun _ => h.constantAt

end Extends

end ConstantPool

/-! ### Decoders of attributes -/

section

variable {pool larger : ConstantPool} (h : pool.Extends larger)

include h

namespace Annotations

theorem refines_readWith {value value' : Decoder String} (hvalue : Refines value value') :
    Refines (readWith pool value) (readWith larger value') := by
  have helement : Refines (readElement pool value) (readElement larger value') :=
    h.readText.bind fun _ => hvalue.first _
  exact h.readText.bind fun _ => helement.counted.first _

theorem refines_readValueIn (levels : Nat) :
    Refines (readValueIn pool levels) (readValueIn larger levels) := by
  induction levels with
  | zero => exact .refl _
  | succ levels ih =>
    unfold readValueIn
    refine .next fun tag => ?_
    split
    · exact h.readConstant.first _
    · exact h.readConstant.first _
    · exact h.readConstant.first _
    · exact h.readConstant.first _
    · exact h.readConstant.first _
    · exact h.readConstant.first _
    · exact h.readConstant.first _
    · exact h.readConstant.first _
    · exact h.readText
    · exact h.readText.first _
    · exact h.readText.bind fun _ => h.readText.first _
    · exact refines_readWith h ih
    · exact ih.counted.first _
    · exact .refl _

theorem refines_readValue : Refines (readValue pool) (readValue larger) :=
  refines_readValueIn h maxLevels

theorem refines_read : Refines (read pool) (read larger) :=
  refines_readWith h (refines_readValue h)

theorem refines_readTypedTable : Refines (readTypedTable pool) (readTypedTable larger) := by
  have htyped : Refines (readTyped? pool) (readTyped? larger) :=
    .next fun _ => .next fun _ => .next fun _ => (refines_read h).first _
  exact htyped.counted.first _

end Annotations

theorem Member.refines_readAttribute (name : String) (m : Member) :
    Refines (m.readAttribute pool name) (m.readAttribute larger name) := by
  unfold readAttribute
  split
  · exact h.readConstant.first _
  · exact .refl _
  · exact .refl _
  · exact h.readText.first _
  · exact h.readClass.counted.first _
  · exact (Annotations.refines_read h).counted.first _
  · exact (Annotations.refines_read h).counted.first _
  · exact .next fun parameters =>
      ((Annotations.refines_read h).counted.replicate parameters.toNat).first _
  · exact .next fun parameters =>
      ((Annotations.refines_read h).counted.replicate parameters.toNat).first _
  · exact (Annotations.refines_readTypedTable h).first _
  · exact (Annotations.refines_readTypedTable h).first _
  · exact (Annotations.refines_readValue h).first _
  · exact .refl _

theorem ClassAttributes.refines_readBody (name : String) (a : ClassAttributes) :
    Refines (a.readBody pool name) (a.readBody larger name) := by
  have hinner (table : InnerTable) : Refines (readInner pool table) (readInner larger table) := by
    refine .next fun inner => .next fun outer => .next fun _ => .next fun flags => ?_
    split
    · exact .refl _
    · exact (Refines.ofExcept fun _ => h.classAt).bind fun _ =>
        (Refines.ofExcept fun _ => h.classAt).first _
  unfold readBody
  split
  · exact .next fun count => (Refines.iterate hinner count.toNat _).first _
  · exact h.readText.first _
  · exact (Annotations.refines_read h).counted.first _
  · exact (Annotations.refines_read h).counted.first _
  · exact (Annotations.refines_readTypedTable h).first _
  · exact (Annotations.refines_readTypedTable h).first _
  · exact .refl _

end

/-! ### Layouts -/

namespace PoolLayout

def append (l : PoolLayout) (more : List PoolItem) : PoolLayout :=
  ⟨l.items ++ more⟩

variable {l : PoolLayout} {more : List PoolItem}

theorem itemAt?_append {index : UInt16} {item : PoolItem} (h : l.itemAt? index = some item) :
    (l.append more).itemAt? index = some item := by
  have htable : (l.append more).table = l.table ++ more.flatMap PoolItem.slots := by
    simp [table, append]
  have hslot := Option.join_eq_some_iff.1 h
  obtain ⟨hindex, -⟩ := List.getElem?_eq_some_iff.1 hslot
  rw [itemAt?, htable, Option.join_eq_some_iff, List.getElem?_append_left hindex, hslot]

theorem textAt?_append {index : UInt16} {text : String} (h : l.textAt? index = some text) :
    (l.append more).textAt? index = some text := by
  rw [textAt?, itemAt?_append (l.textAt?_eq_some h)]

theorem classAt?_append {index : UInt16} {id : ClassId} (h : l.classAt? index = some id) :
    (l.append more).classAt? index = some id := by
  obtain ⟨name, text, hitem, htext, hid⟩ := l.classAt?_eq_some h
  rw [classAt?, itemAt?_append hitem]
  simp [textAt?_append htext, hid]

theorem nameAndTypeAt?_append {index : UInt16} {pair : NameAndType}
    (h : l.nameAndTypeAt? index = some pair) :
    (l.append more).nameAndTypeAt? index = some pair := by
  obtain ⟨name, descriptor, hitem, hname, hdescriptor⟩ := l.nameAndTypeAt?_eq_some h
  rw [nameAndTypeAt?, itemAt?_append hitem]
  simp [textAt?_append hname, textAt?_append hdescriptor]

theorem meaning?_append {item : PoolItem} {entry : PoolEntry} (h : l.meaning? item = some entry) :
    (l.append more).meaning? item = some entry := by
  cases item with
  | classInfo name =>
    obtain ⟨id, hname, rfl⟩ := Option.map_eq_some_iff.1 h
    obtain ⟨text, htext, hid⟩ := Option.bind_eq_some_iff.1 hname
    simp [meaning?, textAt?_append htext, hid]
  | string value =>
    obtain ⟨text, htext, rfl⟩ := Option.map_eq_some_iff.1 h
    simp [meaning?, textAt?_append htext]
  | reference kind owner pair =>
    obtain ⟨id, howner, hrest⟩ := Option.bind_eq_some_iff.1 h
    obtain ⟨value, hpair, hentry⟩ := Option.bind_eq_some_iff.1 hrest
    simp only [meaning?, classAt?_append howner, nameAndTypeAt?_append hpair]
    exact hentry
  | nameAndType name descriptor =>
    obtain ⟨first, hname, hrest⟩ := Option.bind_eq_some_iff.1 h
    obtain ⟨second, hdescriptor, hentry⟩ := Option.bind_eq_some_iff.1 hrest
    simp only [meaning?, textAt?_append hname, textAt?_append hdescriptor]
    exact hentry
  | _ => exact h

theorem extends_append (l : PoolLayout) (more : List PoolItem) :
    l.pool.Extends (l.append more).pool := by
  intro index entry hentry
  rw [pool, get?_map] at hentry
  obtain ⟨item, hitem, hmeans⟩ := Option.bind_eq_some_iff.1 hentry
  rw [pool, get?_map, itemAt?_append hitem]
  exact meaning?_append hmeans

/-- Only the items added have to be looked at. -/
theorem IsResolvable.append (h : l.IsResolvable)
    (hmore : ∀ item ∈ more, item.raw?.isSome → ((l.append more).meaning? item).isSome) :
    (l.append more).IsResolvable := by
  intro item hitem hkept
  rcases List.mem_append.1 hitem with hold | hnew
  · obtain ⟨entry, hentry⟩ := Option.isSome_iff_exists.1 (h item hold hkept)
    rw [meaning?_append hentry]
    rfl
  · exact hmore item hnew hkept

end PoolLayout

end ClassAtlas
