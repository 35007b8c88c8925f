import ClassAtlas.Proofs.ConstantPool.Layout
import ClassAtlas.Proofs.Decoder.Outcome

/-!
# Resolving constant pools

Any row of pool entries, however each is written, behind a count that fits them. Decoding the
pool comes to the meaning of every entry, found by following slot numbers in either direction,
or to the fault of the first entry that misses something, references coming after all others.
-/

namespace ClassAtlas

/-- The bytes stand for the item. A text may be written in any way that is read back. -/
def PoolItem.IsWritten (bytes : List UInt8) : PoolItem → Prop
  | text value => ∃ payload : List UInt8, payload.length < 65536 ∧
      Text.ModifiedUtf8.decode payload = .ok value ∧
      bytes = 1 :: (u2Bytes (.ofNat payload.length) ++ payload)
  | item => bytes = item.bytes

/-- An item of a pool with the bytes that stand for it. -/
structure WrittenItem where
  item : PoolItem
  bytes : List UInt8
  written : item.IsWritten bytes

namespace WrittenItem

/-- A text, with the payload that it is decoded from. -/
def ofPayload (value : String) (payload : List UInt8) (hlength : payload.length < 65536)
    (hdecode : Text.ModifiedUtf8.decode payload = .ok value) : WrittenItem :=
  ⟨.text value, _, payload, hlength, hdecode, rfl⟩

def ofClass (name : UInt16) : WrittenItem :=
  ⟨.classInfo name, _, rfl⟩

end WrittenItem

theorem PoolItem.IsWritten.decodes_read {item : PoolItem} {bytes : List UInt8}
    (h : item.IsWritten bytes) (index : Nat) :
    Decodes (RawEntry.read index) bytes item.raw? := by
  cases item with
  | text value =>
    obtain ⟨payload, hlength, hdecode, rfl⟩ := h
    have hutf : Decodes Decoder.utf (u2Bytes (.ofNat payload.length) ++ payload) value := by
      refine (Decodes.u2 _).bind ?_
      rw [UInt16.toNat_ofNat_of_lt' hlength]
      refine (Decodes.block payload).last ?_
      rw [hdecode]
      exact .pure value
    exact .tagged 1 (hutf.last (.pure _))
  | _ =>
    obtain rfl := h
    refine PoolItem.decodes_read _ ?_ index
    trivial

/-- A constant pool as it stands in a file. -/
structure WrittenPool where
  items : List WrittenItem

namespace WrittenPool

def layout (p : WrittenPool) : PoolLayout :=
  ⟨p.items.map WrittenItem.item⟩

def bytes (p : WrittenPool) : List UInt8 :=
  u2Bytes (.ofNat p.layout.table.length) ++ p.items.flatMap WrittenItem.bytes

def outcome (p : WrittenPool) : Except Error ConstantPool :=
  valueUnless p.layout.fault? p.layout.pool

theorem yields_read (p : WrittenPool) (h : p.layout.table.length < 65536) :
    Yields ConstantPool.read p.bytes p.outcome := by
  have hraw : Decodes RawPool.read p.bytes p.layout.raw :=
    PoolLayout.decodes_rawPool p.items h fun w _ => w.written.decodes_read
  have hresolve : Yields (Decoder.ofExcept p.layout.raw.resolve) [] p.outcome := by
    rw [p.layout.resolve_eq]
    exact .ofExcept _
  have hread := Yields.after (f := fun raw => Decoder.ofExcept raw.resolve) hraw hresolve
  rwa [List.append_nil] at hread

end WrittenPool

/-! ### Class entries -/

theorem filterMap_finRange {α β : Type} (f : α → Option β) (l : List α) (n : Nat)
    (h : l.length ≤ n) : (List.finRange n).filterMap (fun i => l[i.val]?.bind f) = l.filterMap f := by
  induction l generalizing n with
  | nil => simp
  | cons a l ih =>
    obtain ⟨n, rfl⟩ := Nat.exists_eq_add_of_le' (Nat.lt_of_lt_of_le (Nat.succ_pos _) h)
    have hrest := ih n (Nat.le_of_succ_le_succ h)
    rw [List.finRange_succ, List.filterMap_cons, List.filterMap_map, List.filterMap_cons]
    cases hfirst : f a <;> simpa [hfirst, Function.comp_def] using hrest

def PoolEntry.class? : PoolEntry → Option ClassId
  | constant (.classLiteral id) => some id
  | _ => none

namespace ConstantPool

/-- The class entries of a pool, slot by slot. -/
def classesBySlot (pool : ConstantPool) : List ClassId :=
  (List.finRange UInt16.size).filterMap fun slot => (pool.get? (.ofFin slot)).bind PoolEntry.class?

theorem mem_classesBySlot {pool : ConstantPool} {id : ClassId} :
    id ∈ pool.classesBySlot ↔ ∃ index, pool.get? index = some (.constant (.classLiteral id)) := by
  have hclass (entry : PoolEntry) :
      entry.class? = some id ↔ entry = .constant (.classLiteral id) := by
    cases entry with
    | constant value => cases value <;> simp [PoolEntry.class?]
    | _ => simp [PoolEntry.class?]
  simp only [classesBySlot, List.mem_filterMap, Option.bind_eq_some_iff, hclass,
    exists_eq_right]
  constructor
  · rintro ⟨slot, -, hslot⟩
    exact ⟨_, hslot⟩
  · rintro ⟨index, hindex⟩
    exact ⟨index.toFin, List.mem_finRange _, hindex⟩

theorem mem_classes {index : UInt16} {id : ClassId} {pool : ConstantPool}
    (h : pool.get? index = some (.constant (.classLiteral id))) : id ∈ pool.classes := by
  have hslot : pool.slots.toList[index.toNat]? = some (some (.constant (.classLiteral id))) := by
    rw [Array.getElem?_toList]
    exact Option.join_eq_some_iff.1 h
  exact List.mem_filterMap.2 ⟨_, List.mem_of_getElem? hslot, rfl⟩

/-- Where every slot has a number, the classes are the class entries, slot by slot. -/
theorem classes_eq {pool : ConstantPool} (h : pool.slots.size ≤ UInt16.size) :
    pool.classes = pool.classesBySlot := by
  have hclasses : pool.classes = pool.slots.toList.filterMap (·.bind PoolEntry.class?) := by
    unfold classes
    congr 1
    funext slot
    rcases slot with _ | entry
    · rfl
    · cases entry with
      | constant value => cases value <;> rfl
      | _ => rfl
  rw [hclasses, ← filterMap_finRange _ _ UInt16.size h, classesBySlot]
  congr 1
  funext slot
  rw [get?, Array.getElem?_toList, UInt16.toNat_ofFin]
  rcases pool.slots[slot.val]? with _ | _ | entry <;> rfl

/-- The classes are the class entries and nothing else. -/
theorem mem_classes_iff {pool : ConstantPool} (h : pool.slots.size ≤ UInt16.size) {id : ClassId} :
    id ∈ pool.classes ↔ ∃ index, pool.get? index = some (.constant (.classLiteral id)) := by
  rw [classes_eq h, mem_classesBySlot]

end ConstantPool

namespace PoolLayout

variable (l : PoolLayout)

/-- Every item refers to items of the right kinds, and every name of a class can be read. -/
def IsLinked : Prop :=
  ∀ item ∈ l.items, match item with
    | .string value => ∃ text, l.itemAt? value = some (.text text)
    | .classInfo name =>
      ∃ text, l.itemAt? name = some (.text text) ∧ ∃ id, ClassId.parse text = .ok id
    | .nameAndType name descriptor =>
      (∃ text, l.itemAt? name = some (.text text)) ∧
        ∃ text, l.itemAt? descriptor = some (.text text)
    | .reference _ owner pair =>
      (∃ name, l.itemAt? owner = some (.classInfo name)) ∧
        ∃ name descriptor, l.itemAt? pair = some (.nameAndType name descriptor)
    | _ => True

/-- The entry at every slot is what the item that starts there means, and every owner of a
member is among the classes. -/
structure Describes (pool : ConstantPool) : Prop where
  get?_eq (index : UInt16) : pool.get? index = (l.itemAt? index).bind l.meaning?
  get?_isSome (index : UInt16) :
    (pool.get? index).isSome ↔ ∃ item, l.itemAt? index = some item ∧ item.raw?.isSome
  owner_mem {index : UInt16} {kind : ReferenceKind} {member : MemberReference}
    (h : pool.get? index = some (.reference kind member)) : member.owner ∈ pool.classes

theorem textAt?_isSome_iff {index : UInt16} :
    (l.textAt? index).isSome ↔ ∃ text, l.itemAt? index = some (.text text) := by
  rw [Option.isSome_iff_exists]
  constructor
  · rintro ⟨text, htext⟩
    exact ⟨text, l.textAt?_eq_some htext⟩
  · rintro ⟨text, hitem⟩
    exact ⟨text, by rw [textAt?, hitem]⟩

theorem className_isSome_iff {index : UInt16} :
    ((l.textAt? index).bind ClassId.ofText?).isSome ↔
      ∃ text, l.itemAt? index = some (.text text) ∧ ∃ id, ClassId.parse text = .ok id := by
  have hparse (text : String) (id : ClassId) :
      ClassId.parse text = .ok id ↔ ClassId.ofText? text = some id := by
    unfold ClassId.parse
    cases ClassId.ofText? text <;> simp
  simp only [hparse, Option.isSome_iff_exists, Option.bind_eq_some_iff]
  constructor
  · rintro ⟨id, text, htext, hid⟩
    exact ⟨text, l.textAt?_eq_some htext, id, hid⟩
  · rintro ⟨text, hitem, id, hid⟩
    exact ⟨id, text, by rw [textAt?, hitem], hid⟩

theorem nameAndType_isSome_iff {name descriptor : UInt16} :
    (l.meaning? (.nameAndType name descriptor)).isSome ↔
      (∃ text, l.itemAt? name = some (.text text)) ∧
        ∃ text, l.itemAt? descriptor = some (.text text) := by
  rw [← l.textAt?_isSome_iff, ← l.textAt?_isSome_iff]
  simp only [meaning?]
  cases l.textAt? name <;> cases l.textAt? descriptor <;> simp

theorem mem_items_of_itemAt? {index : UInt16} {item : PoolItem} (h : l.itemAt? index = some item) :
    item ∈ l.items := by
  apply l.mem_items_of_mem_table
  exact List.mem_of_getElem? (Option.join_eq_some_iff.1 h)

theorem reference_isSome_iff {kind : ReferenceKind} {owner pair : UInt16} :
    (l.meaning? (.reference kind owner pair)).isSome ↔
      (l.classAt? owner).isSome ∧ (l.nameAndTypeAt? pair).isSome := by
  simp only [meaning?]
  cases l.classAt? owner <;> cases l.nameAndTypeAt? pair <;> simp

/-- A pool is resolvable when its items are linked: a reference to a class or to a name with
its descriptor is as good as that entry, which has to be linked itself. -/
theorem isResolvable_iff : l.IsResolvable ↔ l.IsLinked := by
  constructor
  · intro h item hitem
    cases item with
    | string value =>
      have hvalue := h _ hitem rfl
      rw [meaning?, Option.isSome_map] at hvalue
      exact l.textAt?_isSome_iff.1 hvalue
    | classInfo name =>
      have hname := h _ hitem rfl
      rw [meaning?, Option.isSome_map] at hname
      exact l.className_isSome_iff.1 hname
    | nameAndType name descriptor => exact l.nameAndType_isSome_iff.1 (h _ hitem rfl)
    | reference kind owner pair =>
      obtain ⟨howner, hpair⟩ := l.reference_isSome_iff.1 (h _ hitem rfl)
      obtain ⟨id, hid⟩ := Option.isSome_iff_exists.1 howner
      obtain ⟨value, hvalue⟩ := Option.isSome_iff_exists.1 hpair
      obtain ⟨name, -, hclass, -⟩ := l.classAt?_eq_some hid
      obtain ⟨first, second, hnameAndType, -⟩ := l.nameAndTypeAt?_eq_some hvalue
      exact ⟨⟨name, hclass⟩, first, second, hnameAndType⟩
    | _ => trivial
  · intro h item hitem hkept
    have hlinked := h item hitem
    cases item with
    | string value =>
      rw [meaning?, Option.isSome_map]
      exact l.textAt?_isSome_iff.2 hlinked
    | classInfo name =>
      rw [meaning?, Option.isSome_map]
      exact l.className_isSome_iff.2 hlinked
    | nameAndType name descriptor => exact l.nameAndType_isSome_iff.2 hlinked
    | reference kind owner pair =>
      obtain ⟨⟨name, howner⟩, first, second, hpair⟩ := hlinked
      refine l.reference_isSome_iff.2 ⟨?_, ?_⟩
      · rw [classAt?, howner]
        exact l.className_isSome_iff.2 (h _ (l.mem_items_of_itemAt? howner))
      · obtain ⟨hfirst, hsecond⟩ := h _ (l.mem_items_of_itemAt? hpair)
        obtain ⟨text, htext⟩ := Option.isSome_iff_exists.1 (l.textAt?_isSome_iff.2 hfirst)
        obtain ⟨other, hother⟩ := Option.isSome_iff_exists.1 (l.textAt?_isSome_iff.2 hsecond)
        simp [nameAndTypeAt?, hpair, htext, hother]
    | text _ | integer _ | float _ | long _ | double _ => rfl
    | methodHandle _ _ | methodType _ | dynamic _ _ | invokeDynamic _ _ | moduleInfo _
    | packageInfo _ => contradiction

theorem classAt?_of_meaning? {item : PoolItem} {kind : ReferenceKind} {member : MemberReference}
    (h : l.meaning? item = some (.reference kind member)) :
    ∃ owner, l.classAt? owner = some member.owner := by
  cases item with
  | reference found owner pair =>
    obtain ⟨id, hid, hrest⟩ := Option.bind_eq_some_iff.1 h
    obtain ⟨value, -, hmember⟩ := Option.bind_eq_some_iff.1 hrest
    obtain ⟨-, rfl⟩ := PoolEntry.reference.inj (Option.some.inj hmember)
    exact ⟨owner, hid⟩
  | _ => simp [meaning?, Option.bind_eq_some_iff] at h

theorem describes_pool (h : l.IsResolvable) : l.Describes l.pool where
  get?_eq index := l.get?_map l.meaning? index
  get?_isSome index := by
    rw [pool, get?_map]
    cases hitem : l.itemAt? index with
    | none => simp
    | some item =>
      have hmeans := h item (l.mem_items_of_itemAt? hitem)
      have hskipped (hnone : ¬ item.raw?.isSome) : l.meaning? item = none := by
        cases item <;> first | rfl | exact absurd rfl hnone
      by_cases hkept : item.raw?.isSome
      · simp [hkept, hmeans hkept]
      · simp [hkept, hskipped hkept]
  owner_mem {index kind member} hreference := by
    rw [pool, get?_map] at hreference
    obtain ⟨item, -, hmeans⟩ := Option.bind_eq_some_iff.1 hreference
    obtain ⟨owner, howner⟩ := l.classAt?_of_meaning? hmeans
    obtain ⟨name, text, hitem, htext, hid⟩ := l.classAt?_eq_some howner
    have hentry : l.pool.get? owner = some (.constant (.classLiteral member.owner)) := by
      rw [pool, get?_map, hitem]
      simp [meaning?, htext, hid]
    exact ConstantPool.mem_classes hentry

end PoolLayout

namespace WrittenPool

/-- A pool is decoded exactly when its items are linked. It is then taken to its last byte, and
describes its items; otherwise the fault of the first item that misses something is reported. -/
theorem read_bytes (p : WrittenPool) (h : p.layout.table.length < 65536) (offset : Nat)
    (rest : List UInt8) :
    (p.layout.IsLinked → ∃ pool,
        ConstantPool.read ⟨offset, p.bytes ++ rest⟩ =
          .ok pool ⟨offset + p.bytes.length, rest⟩ ∧ p.layout.Describes pool) ∧
      (¬ p.layout.IsLinked → ∃ e c,
        ConstantPool.read ⟨offset, p.bytes ++ rest⟩ = .error e c ∧ p.layout.fault? = some e) := by
  have hread := p.yields_read h offset rest
  constructor
  · intro hlinked
    have hresolvable := p.layout.isResolvable_iff.2 hlinked
    have houtcome : p.outcome = .ok p.layout.pool := by
      rw [outcome, p.layout.fault?_eq_none_iff.2 hresolvable, valueUnless_none]
    rw [houtcome] at hread
    exact ⟨p.layout.pool, hread, p.layout.describes_pool hresolvable⟩
  · intro hlinked
    have hfault : p.layout.fault? ≠ none := by
      rwa [ne_eq, p.layout.fault?_eq_none_iff, p.layout.isResolvable_iff]
    obtain ⟨e, he⟩ := Option.ne_none_iff_exists'.1 hfault
    have houtcome : p.outcome = .error e := by
      rw [outcome, he, valueUnless_some]
    rw [houtcome] at hread
    obtain ⟨c, hc⟩ := hread
    exact ⟨e, c, hc, he⟩

/-- A method whose class and name stand behind it and behind a long, with a class name that is
not written in the shortest way. -/
def forward : WrittenPool where
  items := [⟨.reference .method 4 5, _, rfl⟩, ⟨.long 7, _, rfl⟩, ⟨.classInfo 6, _, rfl⟩,
    ⟨.nameAndType 7 7, _, rfl⟩, ⟨.text "A", _, [0xC1, 0x81], by decide, by decide, rfl⟩,
    ⟨.text "x", _, [0x78], by decide, by decide, rfl⟩]

theorem read_bytes_forward :
    forward.layout.table.length < 65536 ∧ ∃ pool,
      ConstantPool.read ⟨0, forward.bytes ++ [0xFF]⟩ = .ok pool ⟨0 + forward.bytes.length, [0xFF]⟩ ∧
        forward.layout.Describes pool := by
  have hlength : forward.layout.table.length < 65536 := by decide
  have hlinked : forward.layout.IsLinked := by
    simp only [PoolLayout.IsLinked, layout, forward, List.map_cons, List.map_nil,
      List.forall_mem_cons, List.not_mem_nil, false_imp_iff, implies_true, and_true, true_and]
    exact ⟨⟨⟨6, rfl⟩, 7, 7, rfl⟩, ⟨"A", rfl, .ofName (.ofText "A"), rfl⟩, ⟨"x", rfl⟩, "x", rfl⟩
  exact ⟨hlength, (read_bytes forward hlength 0 [0xFF]).1 hlinked⟩

end WrittenPool

end ClassAtlas
