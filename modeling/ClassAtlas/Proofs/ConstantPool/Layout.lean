import ClassAtlas.ConstantPool
import ClassAtlas.Proofs.Decoder.Decoding
import ClassAtlas.Proofs.Text.ModifiedUtf8

/-!
# Laying out constant pools

A pool as the list of its items, each with the slot numbers of what it refers to. What an
item means is found by following these numbers, wherever the items stand that they lead to.
A pool in which every item has a meaning is decoded from its bytes into the meanings.
-/

namespace ClassAtlas

/-- An item of a constant pool (JVMS 4.4). -/
inductive PoolItem where
  | text (value : String)
  | integer (value : Int32)
  | float (bits : UInt32)
  | long (value : Int64)
  | double (bits : UInt64)
  | classInfo (name : UInt16)
  | string (value : UInt16)
  | reference (kind : ReferenceKind) (owner nameAndType : UInt16)
  | nameAndType (name descriptor : UInt16)
  | methodHandle (kind : UInt8) (reference : UInt16)
  | methodType (descriptor : UInt16)
  | dynamic (bootstrap nameAndType : UInt16)
  | invokeDynamic (bootstrap nameAndType : UInt16)
  | moduleInfo (name : UInt16)
  | packageInfo (name : UInt16)

def ReferenceKind.tag : ReferenceKind → UInt8
  | field => 9
  | method => 10
  | interfaceMethod => 11

def textBytes (text : String) : List UInt8 :=
  u2Bytes (.ofNat (Text.ModifiedUtf8.encode text).length) ++ Text.ModifiedUtf8.encode text

namespace PoolItem

def bytes : PoolItem → List UInt8
  | text value => 1 :: textBytes value
  | integer value => 3 :: u4Bytes value.toUInt32
  | float bits => 4 :: u4Bytes bits
  | long value => 5 :: u8Bytes value.toUInt64
  | double bits => 6 :: u8Bytes bits
  | classInfo name => 7 :: u2Bytes name
  | string value => 8 :: u2Bytes value
  | reference kind owner pair => kind.tag :: (u2Bytes owner ++ u2Bytes pair)
  | nameAndType name descriptor => 12 :: (u2Bytes name ++ u2Bytes descriptor)
  | methodHandle kind target => 15 :: kind :: u2Bytes target
  | methodType descriptor => 16 :: u2Bytes descriptor
  | dynamic bootstrap pair => 17 :: (u2Bytes bootstrap ++ u2Bytes pair)
  | invokeDynamic bootstrap pair => 18 :: (u2Bytes bootstrap ++ u2Bytes pair)
  | moduleInfo name => 19 :: u2Bytes name
  | packageInfo name => 20 :: u2Bytes name

/-- What the decoder keeps of an item. -/
def raw? : PoolItem → Option RawEntry
  | text value => some (.text value)
  | integer value => some (.literal (.integer value))
  | float bits => some (.literal (.float bits))
  | long value => some (.literal (.long value))
  | double bits => some (.literal (.double bits))
  | classInfo name => some (.classEntry name)
  | string value => some (.string value)
  | reference kind owner pair => some (.reference kind owner pair)
  | nameAndType name descriptor => some (.nameAndType name descriptor)
  | methodHandle .. | methodType .. | dynamic .. | invokeDynamic .. | moduleInfo ..
  | packageInfo .. => none

def isWide : PoolItem → Bool
  | long _ | double _ => true
  | _ => false

/-- The slots that an item takes: its own, and an empty one behind an eight-byte number. -/
def slots (item : PoolItem) : List (Option PoolItem) :=
  some item :: if item.isWide then [none] else []

/-- A text is short enough for its length to be written in two bytes. -/
def Fits : PoolItem → Prop
  | text value => (Text.ModifiedUtf8.encode value).length < 65536
  | _ => True

end PoolItem

structure PoolLayout where
  items : List PoolItem

namespace PoolLayout

/-- The slots, from the unused slot zero on. -/
def table (l : PoolLayout) : List (Option PoolItem) :=
  none :: l.items.flatMap PoolItem.slots

def itemAt? (l : PoolLayout) (index : UInt16) : Option PoolItem :=
  l.table[index.toNat]?.join

def textAt? (l : PoolLayout) (index : UInt16) : Option String :=
  match l.itemAt? index with
  | some (.text value) => some value
  | _ => none

def classAt? (l : PoolLayout) (index : UInt16) : Option ClassId :=
  match l.itemAt? index with
  | some (.classInfo name) => (l.textAt? name).bind ClassId.ofText?
  | _ => none

def nameAndTypeAt? (l : PoolLayout) (index : UInt16) : Option NameAndType :=
  match l.itemAt? index with
  | some (.nameAndType name descriptor) => return ⟨← l.textAt? name, ← l.textAt? descriptor⟩
  | _ => none

/-- What an item means, where it means anything and has what it refers to. -/
def meaning? (l : PoolLayout) : PoolItem → Option PoolEntry
  | .text value => some (.text value)
  | .integer value => some (.constant (.integer value))
  | .float bits => some (.constant (.float bits))
  | .long value => some (.constant (.long value))
  | .double bits => some (.constant (.double bits))
  | .classInfo name =>
    ((l.textAt? name).bind ClassId.ofText?).map fun id => .constant (.classLiteral id)
  | .string value => (l.textAt? value).map fun text => .constant (.string text)
  | .reference kind owner pair =>
    return .reference kind ⟨← l.classAt? owner, ← l.nameAndTypeAt? pair⟩
  | .nameAndType name descriptor =>
    return .nameAndType ⟨← l.textAt? name, ← l.textAt? descriptor⟩
  | .methodHandle .. | .methodType .. | .dynamic .. | .invokeDynamic .. | .moduleInfo ..
  | .packageInfo .. => none

/-- Every item that the decoder keeps has what it refers to. -/
def IsResolvable (l : PoolLayout) : Prop :=
  ∀ item ∈ l.items, item.raw?.isSome → (l.meaning? item).isSome

/-- The meanings of all items, at the slots of the items. -/
def pool (l : PoolLayout) : ConstantPool :=
  ⟨(l.table.map fun slot => slot.bind l.meaning?).toArray⟩

def bytes (l : PoolLayout) : List UInt8 :=
  u2Bytes (.ofNat l.table.length) ++ l.items.flatMap PoolItem.bytes

structure Fits (l : PoolLayout) : Prop where
  slots : l.table.length < 65536
  texts : ∀ item ∈ l.items, item.Fits

end PoolLayout

/-! ### Reading the items -/

theorem Decodes.utf {text : String} (h : (Text.ModifiedUtf8.encode text).length < 65536) :
    Decodes Decoder.utf (textBytes text) text := by
  refine (Decodes.u2 _).bind ?_
  rw [UInt16.toNat_ofNat_of_lt' h]
  refine (Decodes.block _).last ?_
  rw [Text.ModifiedUtf8.decode_encode]
  exact Decodes.pure text

theorem Decodes.tagged {α : Type} {f : UInt8 → Decoder α} {bytes : List UInt8} {a : α} (tag : UInt8)
    (h : Decodes (f tag) bytes a) : Decodes (Decoder.u1 >>= f) (tag :: bytes) a :=
  (Decodes.u1 tag).bind h

theorem Decodes.slotPair {α : Type} (f : UInt16 → UInt16 → α) (m n : UInt16) :
    Decodes (do return f (← Decoder.u2) (← Decoder.u2)) (u2Bytes m ++ u2Bytes n) (f m n) :=
  (Decodes.u2 m).bind ((Decodes.u2 n).last (Decodes.pure _))

theorem PoolItem.decodes_read (item : PoolItem) (h : item.Fits) (index : Nat) :
    Decodes (RawEntry.read index) item.bytes item.raw? := by
  unfold RawEntry.read
  cases item with
  | text value => exact .tagged 1 ((Decodes.utf h).last (.pure _))
  | integer value => exact .tagged 3 ((Decodes.i4 value).last (.pure _))
  | float bits => exact .tagged 4 ((Decodes.u4 bits).last (.pure _))
  | long value => exact .tagged 5 ((Decodes.i8 value).last (.pure _))
  | double bits => exact .tagged 6 ((Decodes.u8 bits).last (.pure _))
  | classInfo name => exact .tagged 7 ((Decodes.u2 name).last (.pure _))
  | string value => exact .tagged 8 ((Decodes.u2 value).last (.pure _))
  | reference kind owner pair =>
    cases kind with
    | field => exact .tagged 9 (.slotPair _ owner pair)
    | method => exact .tagged 10 (.slotPair _ owner pair)
    | interfaceMethod => exact .tagged 11 (.slotPair _ owner pair)
  | nameAndType name descriptor => exact .tagged 12 (.slotPair _ name descriptor)
  | methodHandle kind target =>
    exact .tagged 15 ((Decodes.skip (kind :: u2Bytes target)).last (.pure _))
  | methodType descriptor => exact .tagged 16 ((Decodes.skip (u2Bytes descriptor)).last (.pure _))
  | dynamic bootstrap pair =>
    exact .tagged 17 ((Decodes.skip (u2Bytes bootstrap ++ u2Bytes pair)).last (.pure _))
  | invokeDynamic bootstrap pair =>
    exact .tagged 18 ((Decodes.skip (u2Bytes bootstrap ++ u2Bytes pair)).last (.pure _))
  | moduleInfo name => exact .tagged 19 ((Decodes.skip (u2Bytes name)).last (.pure _))
  | packageInfo name => exact .tagged 20 ((Decodes.skip (u2Bytes name)).last (.pure _))

theorem PoolItem.any_isWide_raw? (item : PoolItem) :
    item.raw?.any RawEntry.isWide = item.isWide := by
  cases item <;> rfl

def PoolItem.rawSlots (item : PoolItem) : List (Option RawEntry) :=
  item.slots.map fun slot => slot.bind PoolItem.raw?

theorem PoolItem.rawSlots_eq (item : PoolItem) :
    item.rawSlots = item.raw? :: if item.isWide then [none] else [] := by
  unfold PoolItem.rawSlots PoolItem.slots
  split <;> rfl

theorem decodes_readSlots {ι : Type} {item : ι → PoolItem} {encode : ι → List UInt8}
    (items : List ι)
    (h : ∀ i ∈ items, ∀ index, Decodes (RawEntry.read index) (encode i) (item i).raw?)
    (before : Array (Option RawEntry)) :
    Decodes (RawPool.readSlots (items.flatMap fun i => (item i).rawSlots).length false before)
      (items.flatMap encode) (before ++ items.flatMap fun i => (item i).rawSlots) := by
  induction items generalizing before with
  | nil =>
    have hnil : before ++ ([] : List (Option RawEntry)) = before := by simp
    rw [List.flatMap_nil, List.flatMap_nil, hnil]
    exact .pure before
  | cons i items ih =>
    have hrest := ih fun other hother => h other (List.mem_cons_of_mem i hother)
    have hitem := h i List.mem_cons_self before.size
    rw [List.flatMap_cons, List.flatMap_cons, (item i).rawSlots_eq]
    by_cases hwide : (item i).isWide
    · have hnext := hrest ((before.push (item i).raw?).push none)
      rw [if_pos hwide]
      refine hitem.bind ?_
      rw [(item i).any_isWide_raw?, hwide]
      simpa [RawPool.readSlots] using hnext
    · have hnext := hrest (before.push (item i).raw?)
      rw [if_neg hwide]
      refine hitem.bind ?_
      rw [(item i).any_isWide_raw?, Bool.eq_false_iff.2 hwide]
      simpa using hnext

/-- The pool as it is read, with slot numbers in place of what items refer to. -/
def PoolLayout.raw (l : PoolLayout) : RawPool :=
  ⟨(l.table.map fun slot => slot.bind PoolItem.raw?).toArray⟩

theorem PoolLayout.decodes_rawPool {ι : Type} {item : ι → PoolItem} {encode : ι → List UInt8}
    (items : List ι) (hslots : (PoolLayout.mk (items.map item)).table.length < 65536)
    (h : ∀ i ∈ items, ∀ index, Decodes (RawEntry.read index) (encode i) (item i).raw?) :
    Decodes RawPool.read
      (u2Bytes (.ofNat (PoolLayout.mk (items.map item)).table.length) ++ items.flatMap encode)
      (PoolLayout.mk (items.map item)).raw := by
  have hraw : ((items.map item).flatMap PoolItem.slots).map (fun slot => slot.bind PoolItem.raw?) =
      items.flatMap fun i => (item i).rawSlots := by
    rw [List.map_flatMap, List.flatMap_map]
    rfl
  have hlength : (PoolLayout.mk (items.map item)).table.length - 1 =
      (items.flatMap fun i => (item i).rawSlots).length := by
    rw [← hraw]
    simp [table]
  refine (Decodes.u2 _).bind ?_
  rw [UInt16.toNat_ofNat_of_lt' hslots, hlength]
  refine (decodes_readSlots items h #[none]).last ?_
  have hpool : (PoolLayout.mk (items.map item)).raw =
      ⟨(#[none] : Array (Option RawEntry)) ++ items.flatMap fun i => (item i).rawSlots⟩ := by
    rw [← hraw]
    simp [raw, table]
  rw [hpool]
  exact .pure _

/-! ### Following slot numbers -/

def valueUnless {α : Type} (fault : Option Error) (a : α) : Except Error α :=
  match fault with
  | none => .ok a
  | some e => .error e

@[simp] theorem valueUnless_none {α : Type} (a : α) : valueUnless none a = .ok a := rfl

@[simp] theorem valueUnless_some {α : Type} (e : Error) (a : α) :
    valueUnless (some e) a = .error e := rfl

/-- A pool whose slots are worked out one by one, up to the first fault. -/
theorem mapM_slots_eq {α β : Type} {p : α → β} {f : β → Except Error (Option PoolEntry)}
    {g : α → Option PoolEntry} {fault? : α → Option Error} {l : List α}
    (h : ∀ a ∈ l, f (p a) = valueUnless (fault? a) (g a)) :
    (do return ConstantPool.mk (← (l.map p).toArray.mapM f)) =
      valueUnless (l.findSome? fault?) (ConstantPool.mk (l.map g).toArray) := by
  have hlist : (l.map p).mapM f = valueUnless (l.findSome? fault?) (l.map g) := by
    induction l with
    | nil => rfl
    | cons a l ih =>
      have hl := ih fun b hb => h b (List.mem_cons_of_mem a hb)
      rw [List.map_cons, List.mapM_cons, h a List.mem_cons_self, hl, List.findSome?_cons]
      cases fault? a with
      | some e => rfl
      | none => cases l.findSome? fault? <;> rfl
  rw [List.mapM_toArray, hlist]
  cases l.findSome? fault? <;> rfl

namespace PoolLayout

variable (l : PoolLayout)

theorem get?_map (f : PoolItem → Option PoolEntry) (index : UInt16) :
    ConstantPool.get? ⟨(l.table.map fun slot => slot.bind f).toArray⟩ index =
      (l.itemAt? index).bind f := by
  simp only [ConstantPool.get?, itemAt?, List.getElem?_toArray, List.getElem?_map]
  rcases l.table[index.toNat]? with _ | _ | item <;> rfl

theorem mem_items_of_mem_table {item : PoolItem} (h : some item ∈ l.table) : item ∈ l.items := by
  simp only [table, List.mem_cons, reduceCtorEq, false_or, List.mem_flatMap] at h
  obtain ⟨other, hother, hslot⟩ := h
  unfold PoolItem.slots at hslot
  split at hslot <;> simp_all

theorem textAt?_eq_some {index : UInt16} {value : String} (h : l.textAt? index = some value) :
    l.itemAt? index = some (.text value) := by
  unfold textAt? at h
  split at h
  · next hitem => rw [hitem, Option.some.inj h]
  · contradiction

theorem classAt?_eq_some {index : UInt16} {id : ClassId} (h : l.classAt? index = some id) :
    ∃ name text, l.itemAt? index = some (.classInfo name) ∧ l.textAt? name = some text ∧
      ClassId.ofText? text = some id := by
  unfold classAt? at h
  split at h
  · next name hitem =>
    obtain ⟨text, htext, hid⟩ := Option.bind_eq_some_iff.1 h
    exact ⟨name, text, hitem, htext, hid⟩
  · contradiction

theorem nameAndTypeAt?_eq_some {index : UInt16} {pair : NameAndType}
    (h : l.nameAndTypeAt? index = some pair) :
    ∃ name descriptor, l.itemAt? index = some (.nameAndType name descriptor) ∧
      l.textAt? name = some pair.name ∧ l.textAt? descriptor = some pair.descriptor := by
  unfold nameAndTypeAt? at h
  split at h
  · next name descriptor hitem =>
    obtain ⟨first, hfirst, hrest⟩ := Option.bind_eq_some_iff.1 h
    obtain ⟨second, hsecond, hpair⟩ := Option.bind_eq_some_iff.1 hrest
    obtain rfl := Option.some.inj hpair
    exact ⟨name, descriptor, hitem, hfirst, hsecond⟩
  · contradiction

theorem texts_textAt (index : UInt16) :
    l.raw.texts.textAt index =
      match l.textAt? index with
      | some value => .ok value
      | none => .error (.reference .text index) := by
  have hslots : l.raw.texts = ⟨(l.table.map fun slot =>
      slot.bind fun item => item.raw?.bind RawEntry.plain?).toArray⟩ := by
    simp only [RawPool.texts, raw, List.map_toArray, List.map_map, ConstantPool.mk.injEq]
    congr 1
    refine List.map_congr_left fun slot _ => ?_
    exact Option.bind_assoc slot PoolItem.raw? RawEntry.plain?
  rw [hslots, ConstantPool.textAt, get?_map, textAt?]
  cases l.itemAt? index with
  | none => rfl
  | some item => cases item <;> rfl

def textFault? (index : UInt16) : Option Error :=
  if (l.textAt? index).isSome then none else some (.reference .text index)

def classNameFault? (index : UInt16) : Option Error :=
  match l.textAt? index with
  | none => some (.reference .text index)
  | some text =>
    if (ClassId.ofText? text).isSome then none else some (.format (.notAClassName text))

def classFault? (index : UInt16) : Option Error :=
  if (l.classAt? index).isSome then none else some (.reference .classEntry index)

def nameAndTypeFault? (index : UInt16) : Option Error :=
  if (l.nameAndTypeAt? index).isSome then none else some (.reference .nameAndType index)

/-- The first thing that an item misses, unless the item is a reference. -/
def leafFault? : PoolItem → Option Error
  | .string value => l.textFault? value
  | .classInfo name => l.classNameFault? name
  | .nameAndType name descriptor => (l.textFault? name).or (l.textFault? descriptor)
  | _ => none

/-- The first thing that a reference misses. -/
def linkFault? : PoolItem → Option Error
  | .reference _ owner pair => (l.classFault? owner).or (l.nameAndTypeFault? pair)
  | _ => none

/-- What the first item that misses anything misses. References come after all others. -/
def fault? : Option Error :=
  (l.items.findSome? l.leafFault?).or (l.items.findSome? l.linkFault?)

/-- The meaning of an item that is no reference. -/
def leaf? (item : PoolItem) : Option PoolEntry :=
  match item with
  | .reference .. => none
  | _ => l.meaning? item

def leafPool : ConstantPool :=
  ⟨(l.table.map fun slot => slot.bind l.leaf?).toArray⟩

theorem findSome?_table (fault? : PoolItem → Option Error) :
    l.table.findSome? (fun slot => slot.bind fault?) = l.items.findSome? fault? := by
  have hslots (item : PoolItem) :
      item.slots.findSome? (fun slot => slot.bind fault?) = fault? item := by
    unfold PoolItem.slots
    split <;> cases h : fault? item <;> simp [h]
  have hitems (items : List PoolItem) :
      (items.flatMap PoolItem.slots).findSome? (fun slot => slot.bind fault?) =
        items.findSome? fault? := by
    induction items with
    | nil => rfl
    | cons item items ih =>
      rw [List.flatMap_cons, List.findSome?_append, hslots, ih, List.findSome?_cons]
      cases fault? item <;> rfl
  rw [table, List.findSome?_cons]
  exact hitems l.items

theorem leaf?_raw {item : PoolItem} {e : RawEntry} (he : item.raw? = some e) :
    e.leaf? l.raw.texts = valueUnless (l.leafFault? item) (l.leaf? item) := by
  cases item with
  | classInfo name =>
    obtain rfl := Option.some.inj he
    rw [RawEntry.leaf?, l.texts_textAt]
    cases htext : l.textAt? name with
    | none => simp only [leafFault?, classNameFault?, htext]; rfl
    | some text =>
      cases hid : ClassId.ofText? text with
      | none => simp [leafFault?, classNameFault?, htext, hid, ClassId.parse, bind, Except.bind]
      | some id =>
        simp [leafFault?, classNameFault?, leaf?, meaning?, htext, hid, ClassId.parse, bind,
          Except.bind, pure, Except.pure]
  | string value =>
    obtain rfl := Option.some.inj he
    rw [RawEntry.leaf?, l.texts_textAt]
    cases htext : l.textAt? value with
    | none => simp only [leafFault?, textFault?, htext]; rfl
    | some text => simp only [leafFault?, textFault?, leaf?, meaning?, htext]; rfl
  | nameAndType name descriptor =>
    obtain rfl := Option.some.inj he
    rw [RawEntry.leaf?, l.texts_textAt, l.texts_textAt]
    cases hname : l.textAt? name with
    | none => simp only [leafFault?, textFault?, hname]; rfl
    | some first =>
      cases hdescriptor : l.textAt? descriptor with
      | none => simp only [leafFault?, textFault?, hname, hdescriptor]; rfl
      | some second => simp only [leafFault?, textFault?, leaf?, meaning?, hname, hdescriptor]; rfl
  | text _ | integer _ | float _ | long _ | double _ | reference _ _ _ =>
    obtain rfl := Option.some.inj he
    rfl
  | methodHandle _ _ | methodType _ | dynamic _ _ | invokeDynamic _ _ | moduleInfo _
  | packageInfo _ => contradiction

theorem leaves_eq : l.raw.leaves = valueUnless (l.items.findSome? l.leafFault?) l.leafPool := by
  rw [← l.findSome?_table]
  refine mapM_slots_eq (l := l.table) fun slot _ => ?_
  cases slot with
  | none => rfl
  | some item =>
    rw [Option.bind_some, Option.bind_some, Option.bind_some]
    cases he : item.raw? with
    | none => cases item <;> first | rfl | contradiction
    | some e => exact l.leaf?_raw he

theorem leafPool_classAt (index : UInt16) :
    l.leafPool.classAt index =
      match l.classAt? index with
      | some id => .ok id
      | none => .error (.reference .classEntry index) := by
  rw [ConstantPool.classAt, leafPool, get?_map, classAt?]
  cases l.itemAt? index with
  | none => rfl
  | some item =>
    cases item with
    | classInfo name =>
      simp only [Option.bind_some, leaf?, meaning?]
      cases (l.textAt? name).bind ClassId.ofText? <;> rfl
    | string value =>
      simp only [Option.bind_some, leaf?, meaning?]
      cases l.textAt? value <;> rfl
    | nameAndType name descriptor =>
      simp only [Option.bind_some, leaf?, meaning?]
      cases l.textAt? name <;> cases l.textAt? descriptor <;> rfl
    | _ => rfl

theorem leafPool_nameAndTypeAt (index : UInt16) :
    l.leafPool.nameAndTypeAt index =
      match l.nameAndTypeAt? index with
      | some pair => .ok pair
      | none => .error (.reference .nameAndType index) := by
  rw [ConstantPool.nameAndTypeAt, leafPool, get?_map, nameAndTypeAt?]
  cases l.itemAt? index with
  | none => rfl
  | some item =>
    cases item with
    | classInfo name =>
      simp only [Option.bind_some, leaf?, meaning?]
      cases (l.textAt? name).bind ClassId.ofText? <;> rfl
    | string value =>
      simp only [Option.bind_some, leaf?, meaning?]
      cases l.textAt? value <;> rfl
    | nameAndType name descriptor =>
      simp only [Option.bind_some, leaf?, meaning?]
      cases l.textAt? name <;> cases l.textAt? descriptor <;> rfl
    | _ => rfl

theorem linked?_raw {item : PoolItem} {e : RawEntry} (he : item.raw? = some e) :
    e.linked? l.leafPool (l.leaf? item) = valueUnless (l.linkFault? item) (l.meaning? item) := by
  cases item with
  | reference kind owner pair =>
    obtain rfl := Option.some.inj he
    rw [RawEntry.linked?, l.leafPool_classAt, l.leafPool_nameAndTypeAt]
    cases howner : l.classAt? owner with
    | none => simp only [linkFault?, classFault?, howner]; rfl
    | some id =>
      cases hpair : l.nameAndTypeAt? pair with
      | none => simp only [linkFault?, classFault?, nameAndTypeFault?, howner, hpair]; rfl
      | some value =>
        simp only [linkFault?, classFault?, nameAndTypeFault?, meaning?, howner, hpair]
        rfl
  | classInfo _ | string _ | nameAndType _ _ | text _ | integer _ | float _ | long _ | double _ =>
    obtain rfl := Option.some.inj he
    rfl
  | methodHandle _ _ | methodType _ | dynamic _ _ | invokeDynamic _ _ | moduleInfo _
  | packageInfo _ => contradiction

/-- A pool is resolved into the meanings of its items, or the first item at fault is reported. -/
theorem resolve_eq : l.raw.resolve = valueUnless l.fault? l.pool := by
  have hzip : l.raw.slots.zip l.leafPool.slots =
      (l.table.map fun slot => (slot.bind PoolItem.raw?, slot.bind l.leaf?)).toArray := by
    simp [raw, leafPool, List.zip_map']
  rw [RawPool.resolve, l.leaves_eq, fault?]
  cases l.items.findSome? l.leafFault? with
  | some e => rfl
  | none =>
    change (do return ConstantPool.mk (← (l.raw.slots.zip l.leafPool.slots).mapM _) :
      Except Error ConstantPool) = _
    rw [hzip, Option.none_or, ← l.findSome?_table]
    refine mapM_slots_eq (l := l.table) fun slot _ => ?_
    cases slot with
    | none => rfl
    | some item =>
      rw [Option.bind_some, Option.bind_some, Option.bind_some, Option.bind_some]
      cases he : item.raw? with
      | none => cases item <;> first | rfl | contradiction
      | some e => exact l.linked?_raw he

/-- An item that is kept means something unless it misses something. -/
theorem isSome_meaning?_iff {item : PoolItem} (h : item.raw?.isSome) :
    (l.meaning? item).isSome ↔ l.leafFault? item = none ∧ l.linkFault? item = none := by
  cases item with
  | classInfo name =>
    simp only [meaning?, leafFault?, classNameFault?, linkFault?]
    cases l.textAt? name with
    | none => simp
    | some text => cases h : ClassId.ofText? text <;> simp [h]
  | string value =>
    simp only [meaning?, leafFault?, textFault?, linkFault?]
    cases l.textAt? value <;> simp
  | nameAndType name descriptor =>
    simp only [meaning?, leafFault?, textFault?, linkFault?]
    cases l.textAt? name <;> cases l.textAt? descriptor <;> simp
  | reference kind owner pair =>
    simp only [meaning?, leafFault?, linkFault?, classFault?, nameAndTypeFault?]
    cases l.classAt? owner <;> cases l.nameAndTypeAt? pair <;> simp
  | text _ | integer _ | float _ | long _ | double _ => simp [meaning?, leafFault?, linkFault?]
  | methodHandle _ _ | methodType _ | dynamic _ _ | invokeDynamic _ _ | moduleInfo _
  | packageInfo _ => contradiction

theorem fault?_eq_none_iff : l.fault? = none ↔ l.IsResolvable := by
  have hskipped (item : PoolItem) (h : ¬ item.raw?.isSome) :
      l.leafFault? item = none ∧ l.linkFault? item = none := by
    cases item <;> first | exact ⟨rfl, rfl⟩ | exact absurd rfl h
  simp only [fault?, Option.or_eq_none_iff, List.findSome?_eq_none_iff, IsResolvable]
  constructor
  · intro h item hitem hkept
    exact (l.isSome_meaning?_iff hkept).2 ⟨h.1 item hitem, h.2 item hitem⟩
  · intro h
    have hfaults : ∀ item ∈ l.items, l.leafFault? item = none ∧ l.linkFault? item = none := by
      intro item hitem
      by_cases hkept : item.raw?.isSome
      · exact (l.isSome_meaning?_iff hkept).1 (h item hitem hkept)
      · exact hskipped item hkept
    exact ⟨fun item hitem => (hfaults item hitem).1, fun item hitem => (hfaults item hitem).2⟩

/-- A pool in which every item has what it refers to is decoded into the meanings. -/
theorem decodes_read (hfits : l.Fits) (h : l.IsResolvable) :
    Decodes ConstantPool.read l.bytes l.pool := by
  have hresolve : l.raw.resolve = .ok l.pool := by
    rw [l.resolve_eq, l.fault?_eq_none_iff.2 h, valueUnless_none]
  have hitems : l.items.map (fun item => item) = l.items := List.map_id' l.items
  have hslots : (PoolLayout.mk (l.items.map fun item => item)).table.length < 65536 := by
    rw [hitems]
    exact hfits.slots
  have hraw := decodes_rawPool l.items hslots fun item hitem =>
    item.decodes_read (hfits.texts item hitem)
  rw [hitems] at hraw
  exact hraw.last (.ofExcept hresolve)

end PoolLayout

/-! ### Slots -/

/-- A slot number with what the entry at that slot holds. -/
structure Slot (pool : ConstantPool) {α : Type} (entry : α → PoolEntry) where
  index : UInt16
  value : α
  means : pool.get? index = some (entry value)

abbrev TextSlot (pool : ConstantPool) := Slot pool PoolEntry.text

abbrev ConstantSlot (pool : ConstantPool) := Slot pool PoolEntry.constant

abbrev ClassSlot (pool : ConstantPool) := Slot pool fun id => .constant (.classLiteral id)

namespace Slot

variable {pool : ConstantPool}

theorem textAt (s : TextSlot pool) : pool.textAt s.index = .ok s.value := by
  rw [ConstantPool.textAt, s.means]

theorem constantAt (s : ConstantSlot pool) : pool.constantAt s.index = .ok s.value := by
  rw [ConstantPool.constantAt, s.means]

theorem classAt (s : ClassSlot pool) : pool.classAt s.index = .ok s.value := by
  rw [ConstantPool.classAt, s.means]

theorem decodes_text (s : TextSlot pool) : Decodes pool.readText (u2Bytes s.index) s.value :=
  (Decodes.u2 s.index).last (.ofExcept s.textAt)

theorem decodes_constant (s : ConstantSlot pool) :
    Decodes pool.readConstant (u2Bytes s.index) s.value :=
  (Decodes.u2 s.index).last (.ofExcept s.constantAt)

theorem decodes_class (s : ClassSlot pool) : Decodes pool.readClass (u2Bytes s.index) s.value :=
  (Decodes.u2 s.index).last (.ofExcept s.classAt)

end Slot

end ClassAtlas
