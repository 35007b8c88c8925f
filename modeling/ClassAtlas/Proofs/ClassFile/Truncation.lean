import ClassAtlas.Proofs.ClassFile.Layout
import ClassAtlas.Proofs.Decoder.Locality

/-!
# Truncated class files

A class file that loads has an end: bytes behind it do not matter, and without its last byte,
or any more of them, it is rejected as truncated. The cut may fall into any of its parts,
since every part is decoded by a local decoder.
-/

namespace ClassAtlas

variable (pool : ConstantPool)

theorem RawEntry.isLocal_read (index : Nat) : IsLocal (RawEntry.read index) := by
  have pairOf (f : UInt16 → UInt16 → Option RawEntry) :
      IsLocal (do return f (← Decoder.u2) (← Decoder.u2)) :=
    IsLocal.u2.bind fun _ => IsLocal.u2.bind fun _ => .pure _
  refine IsLocal.u1.bind fun tag => ?_
  split
  · exact IsLocal.utf.bind fun _ => .pure _
  · exact IsLocal.i4.bind fun _ => .pure _
  · exact IsLocal.u4.bind fun _ => .pure _
  · exact IsLocal.i8.bind fun _ => .pure _
  · exact IsLocal.u8.bind fun _ => .pure _
  · exact IsLocal.u2.bind fun _ => .pure _
  · exact IsLocal.u2.bind fun _ => .pure _
  · exact pairOf _
  · exact pairOf _
  · exact pairOf _
  · exact pairOf _
  · exact (IsLocal.skip 3).bind fun _ => .pure _
  · exact (IsLocal.skip 2).bind fun _ => .pure _
  · exact (IsLocal.skip 2).bind fun _ => .pure _
  · exact (IsLocal.skip 2).bind fun _ => .pure _
  · exact (IsLocal.skip 4).bind fun _ => .pure _
  · exact (IsLocal.skip 4).bind fun _ => .pure _
  · exact .throw _

theorem RawPool.isLocal_readSlots (left : Nat) (spills : Bool) (slots : Array (Option RawEntry)) :
    IsLocal (RawPool.readSlots left spills slots) := by
  induction left generalizing spills slots with
  | zero => exact .pure slots
  | succ left ih =>
    cases spills with
    | true => exact ih false (slots.push none)
    | false => exact (RawEntry.isLocal_read slots.size).bind fun entry => ih _ _

namespace ConstantPool

theorem isLocal_read : IsLocal ConstantPool.read := by
  have hraw : IsLocal RawPool.read :=
    IsLocal.u2.bind fun count => (RawPool.isLocal_readSlots _ _ _).bind fun _ => .pure _
  exact hraw.bind fun raw => .ofExcept raw.resolve

theorem isLocal_readText : IsLocal pool.readText :=
  IsLocal.u2.bind fun _ => .ofExcept _

theorem isLocal_readClass : IsLocal pool.readClass :=
  IsLocal.u2.bind fun _ => .ofExcept _

end ConstantPool

/-- The bodies of attributes are confined to blocks, so a cut leaves out the end of a block. -/
theorem Member.isLocal_read (kind : MemberKind) (container : ClassId) :
    IsLocal (Member.read kind container pool) := by
  have hattribute (m : Member) : IsLocal (Member.readNextAttribute pool m) :=
    pool.isLocal_readText.bind fun _ => IsLocal.u4.bind fun _ => .within _ _
  exact IsLocal.u2.bind fun _ => pool.isLocal_readText.bind fun _ =>
    pool.isLocal_readText.bind fun _ => IsLocal.u2.bind fun count =>
      .iterate hattribute count.toNat _

theorem ClassAttributes.isLocal_read : IsLocal (ClassAttributes.read pool) := by
  have hattribute (a : ClassAttributes) : IsLocal (ClassAttributes.readNext pool a) :=
    pool.isLocal_readText.bind fun _ => IsLocal.u4.bind fun _ => .within _ _
  exact IsLocal.u2.bind fun count => .iterate hattribute count.toNat _

namespace ClassFile

theorem isLocal_readOptionalClass : IsLocal (ClassFile.readOptionalClass pool) := by
  refine IsLocal.u2.bind fun index => ?_
  split
  · exact .pure none
  · exact (IsLocal.ofExcept _).bind fun _ => .pure _

theorem isLocal_checkIdentity (expected : Option ClassId) (found : ClassId) :
    IsLocal (ClassFile.checkIdentity expected found) := by
  cases expected with
  | none => exact .pure ()
  | some id =>
    unfold checkIdentity
    dsimp only
    split
    · exact .pure ()
    · exact .throw _

theorem isLocal_read (expected : Option ClassId) : IsLocal (ClassFile.read expected) := by
  refine IsLocal.u4.bind fun start => ?_
  split
  · exact .throw_bind _ _
  · refine IsLocal.u2.bind fun minorVersion => IsLocal.u2.bind fun majorVersion =>
      ConstantPool.isLocal_read.bind fun pool => IsLocal.u2.bind fun flags =>
        pool.isLocal_readClass.bind fun id => ?_
    refine (isLocal_checkIdentity expected id).bind fun _ => ?_
    refine (isLocal_readOptionalClass pool).bind fun superclass =>
      pool.isLocal_readClass.counted.bind fun interfaces => ?_
    refine (Member.isLocal_read pool .field id).counted.bind fun fields =>
      (Member.isLocal_read pool .method id).counted.bind fun methods => ?_
    exact (ClassAttributes.isLocal_read pool).bind fun attributes => .pure _

/-- A class file is found in its own bytes, and in nothing shorter. -/
theorem needs_of_decode {expected : Option ClassId} {bytes : List UInt8} {c : ClassFile}
    (h : decode expected bytes = .ok c) :
    ∃ used rest, bytes = used ++ rest ∧ Needs (ClassFile.read expected) used c := by
  obtain ⟨stop, hread⟩ := read_of_decode h
  obtain ⟨used, hused, hneeds⟩ := isLocal_read expected _ _ _ hread
  exact ⟨used, stop.rest, hused, hneeds⟩

end ClassFile

theorem FormatFault.message_of_isTruncation {fault : FormatFault} (h : fault.isTruncation = true) :
    "truncated classfile".toList <+: fault.message.toList := by
  cases fault with
  | cutShort => decide +kernel
  | blockTooLong needed offset left =>
    have hopening : "truncated classfile".toList <+: "truncated classfile: need ".toList := by
      decide +kernel
    have hstring (text : String) : toString text = text := rfl
    unfold message
    simp only [hstring, String.toList_append, List.append_assoc]
    exact hopening.trans (List.prefix_append _ _)
  | _ => contradiction

namespace Analysis

variable {expected : Option ClassId} {bytes : List UInt8}

theorem load_eq_ok_iff {before after : Analysis} :
    (load expected bytes).run before = .ok () after ↔
      ∃ c, ClassFile.decode expected bytes = .ok c ∧ after = ⟨some c⟩ := by
  rw [EStateM.run, load]
  cases ClassFile.decode expected bytes with
  | ok c => simp [eq_comm]
  | error e => simp

theorem load_of_decodes {used : List UInt8} {c : ClassFile}
    (h : Decodes (ClassFile.read expected) used c) (rest : List UInt8) (before : Analysis) :
    (load expected (used ++ rest)).run before = .ok () ⟨some c⟩ := by
  refine load_eq_ok_iff.2 ⟨c, ?_, rfl⟩
  rw [ClassFile.decode, EStateM.run, Cursor.start, h]

theorem load_of_runsShort (h : RunsShort (ClassFile.read expected) bytes) (before : Analysis) :
    ∃ fault, (load expected bytes).run before = .error (.format fault) {} ∧
      "truncated classfile".toList <+: fault.message.toList := by
  obtain ⟨fault, c, hread, hfault⟩ := h 0
  refine ⟨fault, ?_, FormatFault.message_of_isTruncation hfault⟩
  have hdecode : ClassFile.decode expected bytes = .error (.format fault) := by
    rw [ClassFile.decode, EStateM.run, Cursor.start, hread]
  rw [EStateM.run, load, hdecode]

/-- A class file that loads ends after some number of bytes: what starts with these bytes
loads alike, and what leaves out some of the last of them is truncated. -/
theorem exists_extent_of_load {before after : Analysis}
    (h : (load expected bytes).run before = .ok () after) :
    ∃ n ≤ bytes.length,
      (∀ others, others.take n = bytes.take n → ∀ place,
        (load expected others).run place = .ok () after) ∧
      ∀ front, front <+: bytes.take n → front ≠ bytes.take n → ∀ place,
        ∃ fault, (load expected front).run place = .error (.format fault) {} ∧
          "truncated classfile".toList <+: fault.message.toList := by
  obtain ⟨c, hdecode, rfl⟩ := load_eq_ok_iff.1 h
  obtain ⟨used, rest, rfl, hneeds⟩ := ClassFile.needs_of_decode hdecode
  have hused : (used ++ rest).take used.length = used := List.take_left
  refine ⟨used.length, by simp, ?_, ?_⟩
  · intro others hothers place
    rw [hused] at hothers
    have hsplit : others = used ++ others.drop used.length := by
      conv_lhs => rw [← List.take_append_drop used.length others, hothers]
    rw [hsplit]
    exact load_of_decodes hneeds.decodes _ place
  · intro front hfront hne place
    rw [hused] at hfront hne
    obtain ⟨back, hback⟩ := hfront
    have hcut : back ≠ [] := by
      rintro rfl
      exact hne (by rw [← hback, List.append_nil])
    exact load_of_runsShort (hneeds.runsShort hback.symm hcut) place

/-- The sample class with two more bytes behind it. -/
theorem exists_extent_of_load_sampleClass :
    (load none (sampleClass.bytes ++ [0xCA, 0xFE])).run {} = .ok () ⟨some sampleClass.classFile⟩ ∧
      ∃ n ≤ (sampleClass.bytes ++ [0xCA, 0xFE]).length,
        (∀ others, others.take n = (sampleClass.bytes ++ [0xCA, 0xFE]).take n → ∀ place,
          (load none others).run place = .ok () ⟨some sampleClass.classFile⟩) ∧
        ∀ front, front <+: (sampleClass.bytes ++ [0xCA, 0xFE]).take n →
          front ≠ (sampleClass.bytes ++ [0xCA, 0xFE]).take n → ∀ place,
          ∃ fault, (load none front).run place = .error (.format fault) {} ∧
            "truncated classfile".toList <+: fault.message.toList := by
  have hdecodes : Decodes (ClassFile.read none) sampleClass.bytes sampleClass.classFile :=
    sampleClass.decodes_read sampleClass_fits sampleClass_resolvable sampleClass_within
  have hload := load_of_decodes hdecodes [0xCA, 0xFE] {}
  exact ⟨hload, exists_extent_of_load hload⟩

end Analysis

end ClassAtlas
