import ClassAtlas.Proofs.ClassFile.Frame
import ClassAtlas.Proofs.Decoder.Answers

/-!
# Classes of constant pools

No entry holds a class by itself: it has the slot of a name, and the class is what is read from
the text there. So whatever a decoded pool has for a class was read from some text. A decoded
pool has no more slots than there are slot numbers, so its classes are those that are found slot
by slot.
-/

namespace ClassAtlas

/-- An entry as bytes can have it, where no literal is a class. -/
def RawEntry.IsBare : RawEntry → Prop
  | literal (.classLiteral _) => False
  | _ => True

theorem RawEntry.isBare_read (index : Nat) :
    Answers (RawEntry.read index) fun slot => ∀ entry ∈ slot, entry.IsBare := by
  have hbare {entry : RawEntry} (h : entry.IsBare) :
      Answers (pure (some entry)) fun slot => ∀ entry ∈ slot, entry.IsBare :=
    .pure fun _ hentry => Option.some.inj hentry ▸ h
  have hnone : Answers (pure none) fun slot : Option RawEntry => ∀ entry ∈ slot, entry.IsBare :=
    .pure fun _ hentry => by cases hentry
  have hpair (f : UInt16 → UInt16 → RawEntry) (h : ∀ first second, (f first second).IsBare) :
      Answers (do return some (f (← Decoder.u2) (← Decoder.u2)))
        fun slot => ∀ entry ∈ slot, entry.IsBare :=
    .after fun first => .after fun second => hbare (h first second)
  refine .after fun tag => ?_
  split
  · exact .after fun _ => hbare trivial
  · exact .after fun _ => hbare trivial
  · exact .after fun _ => hbare trivial
  · exact .after fun _ => hbare trivial
  · exact .after fun _ => hbare trivial
  · exact .after fun _ => hbare trivial
  · exact .after fun _ => hbare trivial
  · exact hpair _ fun _ _ => trivial
  · exact hpair _ fun _ _ => trivial
  · exact hpair _ fun _ _ => trivial
  · exact hpair _ fun _ _ => trivial
  · exact .after fun _ => hnone
  · exact .after fun _ => hnone
  · exact .after fun _ => hnone
  · exact .after fun _ => hnone
  · exact .after fun _ => hnone
  · exact .after fun _ => hnone
  · exact .throw _ _

namespace RawPool

def IsBare (slots : Array (Option RawEntry)) : Prop :=
  ∀ slot ∈ slots, ∀ entry ∈ slot, entry.IsBare

theorem IsBare.push {slots : Array (Option RawEntry)} (h : IsBare slots) {slot : Option RawEntry}
    (hslot : ∀ entry ∈ slot, entry.IsBare) : IsBare (slots.push slot) := by
  intro other hother
  rcases Array.mem_push.1 hother with hold | rfl
  · exact h other hold
  · exact hslot

theorem isBare_readSlots (left : Nat) (spills : Bool) {slots : Array (Option RawEntry)}
    (h : IsBare slots) : Answers (readSlots left spills slots) IsBare := by
  induction left generalizing spills slots with
  | zero => exact .pure h
  | succ left ih =>
    cases spills with
    | true => exact ih false (h.push fun _ hentry => by cases hentry)
    | false =>
      exact (RawEntry.isBare_read slots.size).bind fun slot hslot => ih _ (h.push hslot)

theorem isBare_read : Answers RawPool.read fun raw => IsBare raw.slots := by
  have hzero : IsBare #[none] := fun slot hslot entry hentry => by
    rw [Array.mem_singleton.1 hslot] at hentry
    cases hentry
  exact .after fun count => (isBare_readSlots _ false hzero).map RawPool.mk fun _ h => h

end RawPool

theorem exists_of_mem_mapM {α β : Type} {f : α → Except Error β} {items : Array α}
    {values : Array β} (h : items.mapM f = .ok values) {b : β} (hb : b ∈ values) :
    ∃ a ∈ items, f a = .ok b := by
  rw [Array.mapM_eq_mapM_toList] at h
  obtain ⟨list, hlist, heq⟩ := bind_eq_ok_iff.1 h
  obtain rfl : list.toArray = values := Except.ok.inj heq
  obtain ⟨a, ha, hf⟩ := (mem_of_mapM hlist b).1 (List.mem_toArray.1 hb)
  exact ⟨a, Array.mem_toList_iff.1 ha, hf⟩

/-! ### What becomes of the entries -/

/-- A class comes of an entry with the slot of its name. -/
theorem RawEntry.exists_parse_of_leaf? {texts : ConstantPool} {entry : RawEntry}
    (hbare : entry.IsBare) {id : ClassId}
    (h : entry.leaf? texts = .ok (some (.constant (.classLiteral id)))) :
    ∃ text, ClassId.parse text = .ok id := by
  cases entry with
  | text value => cases Except.ok.inj h
  | literal value =>
    cases Except.ok.inj h
    exact hbare.elim
  | string index =>
    obtain ⟨text, -, heq⟩ := bind_eq_ok_iff.1 h
    cases Except.ok.inj heq
  | classEntry index =>
    obtain ⟨text, -, hrest⟩ := bind_eq_ok_iff.1 h
    obtain ⟨found, hfound, heq⟩ := bind_eq_ok_iff.1 hrest
    cases Except.ok.inj heq
    exact ⟨text, hfound⟩
  | nameAndType name descriptor =>
    obtain ⟨text, -, hrest⟩ := bind_eq_ok_iff.1 h
    obtain ⟨other, -, heq⟩ := bind_eq_ok_iff.1 hrest
    cases Except.ok.inj heq
  | reference kind owner pair => cases Except.ok.inj h

theorem RawEntry.eq_of_linked? {leaves : ConstantPool} {found : Option PoolEntry}
    {entry : RawEntry} {id : ClassId}
    (h : entry.linked? leaves found = .ok (some (.constant (.classLiteral id)))) :
    found = some (.constant (.classLiteral id)) := by
  cases entry with
  | reference kind owner pair =>
    obtain ⟨_, -, hrest⟩ := bind_eq_ok_iff.1 h
    obtain ⟨_, -, heq⟩ := bind_eq_ok_iff.1 hrest
    cases Except.ok.inj heq
  | text | literal | string | classEntry | nameAndType => exact Except.ok.inj h

theorem RawPool.exists_parse_of_resolve {raw : RawPool} (hbare : IsBare raw.slots)
    {pool : ConstantPool} (h : raw.resolve = .ok pool) {id : ClassId}
    (hid : some (.constant (.classLiteral id)) ∈ pool.slots) :
    ∃ text, ClassId.parse text = .ok id := by
  obtain ⟨leaves, hleaves, hrest⟩ := bind_eq_ok_iff.1 h
  obtain ⟨slots, hslots, heq⟩ := bind_eq_ok_iff.1 hrest
  cases Except.ok.inj heq
  obtain ⟨⟨_ | entry, found⟩, hmem, hlinked⟩ := exists_of_mem_mapM hslots hid
  · cases Except.ok.inj hlinked
  · -- The class was there before the references were put in, so it comes of its own entry.
    obtain rfl := RawEntry.eq_of_linked? hlinked
    obtain ⟨leafSlots, hleafSlots, heq⟩ := bind_eq_ok_iff.1 hleaves
    cases Except.ok.inj heq
    have hfound := (Array.of_mem_zip hmem).2
    obtain ⟨_ | leaf, hleaf, hmeans⟩ := exists_of_mem_mapM hleafSlots hfound
    · cases Except.ok.inj hmeans
    · exact RawEntry.exists_parse_of_leaf? (hbare _ hleaf leaf rfl) hmeans

namespace ConstantPool

/-- Every class in the pool was read from a text. -/
def HasParsedClasses (pool : ConstantPool) : Prop :=
  ∀ index id, pool.classAt index = .ok id → ∃ text, ClassId.parse text = .ok id

theorem hasParsedClasses_read : Answers ConstantPool.read HasParsedClasses := by
  refine RawPool.isBare_read.bind fun raw hbare => (Answers.ofExcept _).mono fun pool hpool => ?_
  intro index id hid
  unfold classAt at hid
  split at hid
  · next found hfound =>
    cases Except.ok.inj hid
    exact RawPool.exists_parse_of_resolve hbare hpool
      (Array.mem_of_getElem? (Option.join_eq_some_iff.1 hfound))
  · cases hid

end ConstantPool

/-! ### Slots -/

theorem size_of_mapM {α β : Type} {f : α → Except Error β} {items : Array α} {values : Array β}
    (h : items.mapM f = .ok values) : values.size = items.size := by
  rw [Array.mapM_eq_mapM_toList] at h
  obtain ⟨list, hlist, heq⟩ := bind_eq_ok_iff.1 h
  obtain rfl : list.toArray = values := Except.ok.inj heq
  rw [List.size_toArray, ← (mapM_eq_ok_iff.1 hlist).length_eq, Array.length_toList]

namespace RawPool

theorem size_readSlots (left : Nat) (spills : Bool) (slots : Array (Option RawEntry)) :
    Answers (readSlots left spills slots) (·.size = slots.size + left) := by
  induction left generalizing spills slots with
  | zero => exact .pure rfl
  | succ left ih =>
    have hpush (slot : Option RawEntry) (spills : Bool) :
        Answers (readSlots left spills (slots.push slot)) (·.size = slots.size + (left + 1)) := by
      refine (ih spills (slots.push slot)).mono fun filled hfilled => ?_
      rw [hfilled, Array.size_push]
      omega
    cases spills with
    | true => exact hpush none false
    | false => exact .after fun slot => hpush slot _

theorem size_read : Answers RawPool.read fun raw => raw.slots.size ≤ UInt16.size := by
  refine .after fun count => (size_readSlots _ false #[none]).map RawPool.mk fun slots hslots => ?_
  have hcount : count.toNat < UInt16.size := count.toNat_lt
  simp only [hslots, List.size_toArray, List.length_singleton]
  omega

theorem size_resolve {raw : RawPool} {pool : ConstantPool} (h : raw.resolve = .ok pool) :
    pool.slots.size ≤ raw.slots.size := by
  obtain ⟨leaves, -, hrest⟩ := bind_eq_ok_iff.1 h
  obtain ⟨slots, hslots, heq⟩ := bind_eq_ok_iff.1 hrest
  cases Except.ok.inj heq
  rw [size_of_mapM hslots, Array.size_zip]
  exact Nat.min_le_left _ _

end RawPool

theorem ConstantPool.size_read :
    Answers ConstantPool.read fun pool => pool.slots.size ≤ UInt16.size :=
  RawPool.size_read.bind fun _ hsize =>
    (Answers.ofExcept _).mono fun _ hpool => Nat.le_trans (RawPool.size_resolve hpool) hsize

namespace ClassFile

theorem size_slots_read (expected : Option ClassId) :
    Answers (ClassFile.read expected) fun c => c.pool.slots.size ≤ UInt16.size := by
  refine .after fun start => ?_
  split
  · intro _ _ _ hrefused
    contradiction
  · refine .after fun _ => .after fun _ => ConstantPool.size_read.bind fun pool hpool => ?_
    refine .after fun _ => .after fun _ => .after fun _ => .after fun _ => .after fun _ => ?_
    exact .after fun _ => .after fun _ => .after fun _ => .pure hpool

/-- A class file has the classes that are found in its pool slot by slot. -/
theorem classes_eq_of_decode {expected : Option ClassId} {bytes : List UInt8} {c : ClassFile}
    (h : decode expected bytes = .ok c) : c.pool.classes = c.pool.classesBySlot := by
  obtain ⟨stop, hread⟩ := read_of_decode h
  exact ConstantPool.classes_eq (size_slots_read expected _ _ _ hread)

end ClassFile

end ClassAtlas
