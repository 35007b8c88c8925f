import ClassAtlas.ClassFile
import ClassAtlas.Proofs.Decoder.Locality

/-!
# What decoders can fail with

`Fails d P` says that every failure of `d` has the property `P`, whatever bytes it was met
in. Decoding a class file fails in three ways only: the bytes do not have the form they
should have, a slot of the pool does not hold what is looked for, or the file is that of
another class. No file is looked for while bytes are decoded.
-/

namespace ClassAtlas

/-- Whether an error speaks of the bytes of one class file and of nothing around it. -/
def Error.isOfBytes : Error → Bool
  | .format (.noClassFile _) => false
  | .format _ | .reference _ _ | .identityMismatch _ _ => true
  | .signature _ _ _ | .inClass _ _ | .file _ _ | .walk _ _ => false

variable {α β : Type}

/-- Whatever is wrong with a result has the property `P`. -/
def Blames (x : Except Error α) (P : Error → Prop) : Prop :=
  ∀ e, x = .error e → P e

namespace Blames

variable {P : Error → Prop}

theorem ok (a : α) (P : Error → Prop) : Blames (Except.ok a) P := by
  intro e h
  contradiction

theorem error {e : Error} (h : P e) : Blames (Except.error e : Except Error α) P := by
  intro cause hcause
  cases hcause
  exact h

theorem mono {Q : Error → Prop} {x : Except Error α} (h : Blames x P) (hPQ : ∀ e, P e → Q e) :
    Blames x Q :=
  fun e he => hPQ e (h e he)

theorem bind {x : Except Error α} {f : α → Except Error β} (hx : Blames x P)
    (hf : ∀ a, Blames (f a) P) : Blames (x >>= f) P := by
  cases x with
  | ok a => exact hf a
  | error e => exact error (hx e rfl)

theorem first {x : Except Error α} (h : Blames x P) (f : α → β) :
    Blames (do return f (← x)) P :=
  h.bind fun _ => ok _ P

theorem mapM {f : α → Except Error β} (h : ∀ a, Blames (f a) P) (l : List α) :
    Blames (l.mapM f) P := by
  induction l with
  | nil => exact ok [] P
  | cons a l ih =>
    rw [List.mapM_cons]
    exact (h a).bind fun b => ih.first _

theorem mapM_array {f : α → Except Error β} (h : ∀ a, Blames (f a) P) (l : Array α) :
    Blames (l.mapM f) P := by
  rw [Array.mapM_eq_mapM_toList]
  exact (mapM h l.toList).first _

end Blames

def Fails (d : Decoder α) (P : Error → Prop) : Prop :=
  ∀ start e stop, d start = .error e stop → P e

theorem Decoder.bind_eq_error {d : Decoder α} {f : α → Decoder β} {start stop : Cursor}
    {e : Error} (h : (d >>= f) start = .error e stop) :
    d start = .error e stop ∨ ∃ a middle, d start = .ok a middle ∧ f a middle = .error e stop := by
  change EStateM.bind d f start = _ at h
  unfold EStateM.bind at h
  split at h
  · next a middle hd => exact Or.inr ⟨a, middle, hd, h⟩
  · next cause middle hd =>
    injection h with hcause hmiddle
    subst hcause hmiddle
    exact Or.inl hd

namespace Fails

variable {P : Error → Prop}

theorem pure (a : α) (P : Error → Prop) : Fails (Pure.pure a : Decoder α) P := by
  intro start e stop h
  contradiction

theorem throw {e : Error} (h : P e) : Fails (MonadExcept.throw e : Decoder α) P := by
  intro start cause stop hthrow
  change EStateM.Result.error e start = _ at hthrow
  injection hthrow with hcause
  exact hcause ▸ h

theorem bind {d : Decoder α} {f : α → Decoder β} (hd : Fails d P) (hf : ∀ a, Fails (f a) P) :
    Fails (d >>= f) P := by
  intro start e stop h
  obtain hfirst | ⟨a, middle, -, hsecond⟩ := Decoder.bind_eq_error h
  · exact hd start e stop hfirst
  · exact hf a middle e stop hsecond

theorem first {d : Decoder α} (h : Fails d P) (f : α → β) :
    Fails (do return f (← d)) P :=
  h.bind fun _ => pure _ P

theorem ofExcept {x : Except Error α} (h : Blames x P) : Fails (Decoder.ofExcept x) P := by
  cases x with
  | ok a => exact pure a P
  | error e => exact throw (h e rfl)

theorem iterate {step : α → Decoder α} (h : ∀ a, Fails (step a) P) (count : Nat) (a : α) :
    Fails (Decoder.iterate step count a) P := by
  induction count generalizing a with
  | zero => exact pure a P
  | succ count ih => exact (h a).bind ih

theorem replicate {item : Decoder α} (h : Fails item P) (count : Nat) :
    Fails (Decoder.replicate count item) P :=
  (iterate (fun _ => h.first _) count _).first _

end Fails

/-- A result that is missing only because of the bytes it would come from. -/
abbrev OfBytes (x : Except Error α) : Prop :=
  Blames x fun e => e.isOfBytes = true

/-- A decoder that fails only because of the bytes it is given. -/
abbrev BlamesBytes (d : Decoder α) : Prop :=
  Fails d fun e => e.isOfBytes = true

namespace BlamesBytes

theorem throw_bind {e : Error} (h : e.isOfBytes = true) (f : α → Decoder β) :
    BlamesBytes ((MonadExcept.throw e : Decoder α) >>= f) := by
  intro start cause stop hthrow
  change EStateM.Result.error e start = _ at hthrow
  injection hthrow with hcause
  exact hcause ▸ h

theorem fixed (width : Nat) : BlamesBytes (Decoder.fixed width) := by
  intro start e stop h
  unfold Decoder.fixed at h
  split at h
  · contradiction
  · cases h
    rfl

theorem block (length : Nat) : BlamesBytes (Decoder.block length) := by
  intro start e stop h
  unfold Decoder.block at h
  split at h
  · contradiction
  · cases h
    rfl

theorem skip (length : Nat) : BlamesBytes (Decoder.skip length) :=
  (block length).first _

theorem u1 : BlamesBytes Decoder.u1 := (fixed 1).first _

theorem u2 : BlamesBytes Decoder.u2 := (fixed 2).first _

theorem u4 : BlamesBytes Decoder.u4 := (fixed 4).first _

theorem u8 : BlamesBytes Decoder.u8 := (fixed 8).first _

theorem i4 : BlamesBytes Decoder.i4 := u4.first _

theorem i8 : BlamesBytes Decoder.i8 := u8.first _

theorem utf : BlamesBytes Decoder.utf := by
  refine u2.bind fun length => (block length.toNat).bind fun bytes => ?_
  split
  · exact .pure _ _
  · exact .throw rfl

theorem within {body : Decoder α} (h : BlamesBytes body) (length : Nat) :
    BlamesBytes (Decoder.within length body) := by
  refine (block length).bind fun bytes => ?_
  split
  · exact .pure _ _
  · next e stop hbody => exact .throw (h _ _ _ hbody)

theorem counted {item : Decoder α} (h : BlamesBytes item) : BlamesBytes (Decoder.counted item) :=
  u2.bind fun count => h.replicate count.toNat

end BlamesBytes

variable (pool : ConstantPool)

theorem RawEntry.blamesBytes_read (index : Nat) : BlamesBytes (RawEntry.read index) := by
  have pairOf (f : UInt16 → UInt16 → Option RawEntry) :
      BlamesBytes (do return f (← Decoder.u2) (← Decoder.u2)) :=
    BlamesBytes.u2.bind fun _ => BlamesBytes.u2.first _
  refine BlamesBytes.u1.bind fun tag => ?_
  split
  · exact BlamesBytes.utf.first _
  · exact BlamesBytes.i4.first _
  · exact BlamesBytes.u4.first _
  · exact BlamesBytes.i8.first _
  · exact BlamesBytes.u8.first _
  · exact BlamesBytes.u2.first _
  · exact BlamesBytes.u2.first _
  · exact pairOf _
  · exact pairOf _
  · exact pairOf _
  · exact pairOf _
  · exact (BlamesBytes.skip 3).first _
  · exact (BlamesBytes.skip 2).first _
  · exact (BlamesBytes.skip 2).first _
  · exact (BlamesBytes.skip 2).first _
  · exact (BlamesBytes.skip 4).first _
  · exact (BlamesBytes.skip 4).first _
  · exact .throw rfl

theorem RawPool.blamesBytes_readSlots (left : Nat) (spills : Bool)
    (slots : Array (Option RawEntry)) : BlamesBytes (RawPool.readSlots left spills slots) := by
  induction left generalizing spills slots with
  | zero => exact .pure slots _
  | succ left ih =>
    cases spills with
    | true => exact ih false (slots.push none)
    | false => exact (RawEntry.blamesBytes_read slots.size).bind fun entry => ih _ _

namespace ConstantPool

theorem ofBytes_textAt (index : UInt16) : OfBytes (pool.textAt index) := by
  unfold textAt
  split
  · exact .ok _ _
  · exact .error rfl

theorem ofBytes_classAt (index : UInt16) : OfBytes (pool.classAt index) := by
  unfold classAt
  split
  · exact .ok _ _
  · exact .error rfl

theorem ofBytes_constantAt (index : UInt16) : OfBytes (pool.constantAt index) := by
  unfold constantAt
  split
  · exact .ok _ _
  · exact .error rfl

theorem ofBytes_nameAndTypeAt (index : UInt16) : OfBytes (pool.nameAndTypeAt index) := by
  unfold nameAndTypeAt
  split
  · exact .ok _ _
  · exact .error rfl

end ConstantPool

theorem ClassId.ofBytes_parse (text : String) : OfBytes (ClassId.parse text) := by
  unfold ClassId.parse
  split
  · exact .ok _ _
  · exact .error rfl

theorem RawEntry.ofBytes_leaf? (entry : RawEntry) : OfBytes (entry.leaf? pool) := by
  cases entry with
  | text | literal | reference => exact .ok _ _
  | string index => exact (pool.ofBytes_textAt index).first _
  | classEntry index =>
    exact (pool.ofBytes_textAt index).bind fun text =>
      (ClassId.ofBytes_parse text).first _
  | nameAndType name descriptor =>
    exact (pool.ofBytes_textAt name).bind fun _ =>
      (pool.ofBytes_textAt descriptor).first _

theorem RawEntry.ofBytes_linked? (found : Option PoolEntry) (entry : RawEntry) :
    OfBytes (entry.linked? pool found) := by
  cases entry with
  | reference kind owner pair =>
    exact (pool.ofBytes_classAt owner).bind fun _ =>
      (pool.ofBytes_nameAndTypeAt pair).first _
  | text | literal | string | classEntry | nameAndType => exact .ok _ _

theorem RawPool.ofBytes_resolve (raw : RawPool) : OfBytes raw.resolve := by
  have hleaves : OfBytes raw.leaves := by
    refine (Blames.mapM_array (fun slot => ?_) raw.slots).first _
    cases slot with
    | none => exact .ok none _
    | some entry => exact entry.ofBytes_leaf? raw.texts
  refine hleaves.bind fun leaves =>
    (Blames.mapM_array (fun slot => ?_) (raw.slots.zip leaves.slots)).first _
  rcases slot with ⟨_ | entry, found⟩
  · exact .ok none _
  · exact entry.ofBytes_linked? leaves found

namespace ConstantPool

theorem blamesBytes_read : BlamesBytes ConstantPool.read := by
  have hraw : BlamesBytes RawPool.read :=
    BlamesBytes.u2.bind fun count => (RawPool.blamesBytes_readSlots _ _ _).first _
  exact hraw.bind fun raw => .ofExcept raw.ofBytes_resolve

theorem blamesBytes_readText : BlamesBytes pool.readText :=
  BlamesBytes.u2.bind fun index => .ofExcept (pool.ofBytes_textAt index)

theorem blamesBytes_readClass : BlamesBytes pool.readClass :=
  BlamesBytes.u2.bind fun index => .ofExcept (pool.ofBytes_classAt index)

theorem blamesBytes_readConstant : BlamesBytes pool.readConstant :=
  BlamesBytes.u2.bind fun index => .ofExcept (pool.ofBytes_constantAt index)

end ConstantPool

namespace Annotations

theorem blamesBytes_readWith {value : Decoder String} (h : BlamesBytes value) :
    BlamesBytes (readWith pool value) := by
  have helement : BlamesBytes (readElement pool value) :=
    pool.blamesBytes_readText.bind fun _ => h.first _
  exact pool.blamesBytes_readText.bind fun _ => helement.counted.first _

theorem blamesBytes_readValueIn (levels : Nat) : BlamesBytes (readValueIn pool levels) := by
  induction levels with
  | zero => exact .throw rfl
  | succ levels ih =>
    refine BlamesBytes.u1.bind fun tag => ?_
    split
    case h_9 => exact pool.blamesBytes_readText
    case h_10 => exact pool.blamesBytes_readText.first _
    case h_11 =>
      exact pool.blamesBytes_readText.bind fun _ =>
        pool.blamesBytes_readText.first _
    case h_12 => exact blamesBytes_readWith pool ih
    case h_13 => exact ih.counted.first _
    case h_14 => exact .throw rfl
    all_goals exact pool.blamesBytes_readConstant.first _

theorem blamesBytes_readValue : BlamesBytes (readValue pool) :=
  blamesBytes_readValueIn pool maxLevels

theorem blamesBytes_read : BlamesBytes (read pool) :=
  blamesBytes_readWith pool (blamesBytes_readValue pool)

theorem Target.blamesBytes_read : BlamesBytes Target.read := by
  refine BlamesBytes.u1.bind fun kind => ?_
  split
  · exact BlamesBytes.u1.first _
  · exact BlamesBytes.u1.first _
  · exact BlamesBytes.u2.first _
  · exact BlamesBytes.u1.bind fun _ => BlamesBytes.u1.first _
  · exact BlamesBytes.u1.bind fun _ => BlamesBytes.u1.first _
  · exact .pure _ _
  · exact .pure _ _
  · exact .pure _ _
  · exact BlamesBytes.u1.first _
  · exact BlamesBytes.u2.first _
  · exact BlamesBytes.u2.bind fun ranges => (BlamesBytes.skip _).first _
  · exact BlamesBytes.u2.bind fun ranges => (BlamesBytes.skip _).first _
  · exact (BlamesBytes.skip 2).first _
  · exact (BlamesBytes.skip 2).first _
  · exact (BlamesBytes.skip 2).first _
  · exact (BlamesBytes.skip 2).first _
  · exact (BlamesBytes.skip 2).first _
  · exact (BlamesBytes.skip 3).first _
  · exact (BlamesBytes.skip 3).first _
  · exact (BlamesBytes.skip 3).first _
  · exact (BlamesBytes.skip 3).first _
  · exact (BlamesBytes.skip 3).first _
  · exact .pure _ _

theorem blamesBytes_readTypedTable : BlamesBytes (readTypedTable pool) := by
  have hstep : BlamesBytes readStep :=
    BlamesBytes.u1.bind fun _ => BlamesBytes.u1.first _
  have htyped : BlamesBytes (readTyped? pool) :=
    Target.blamesBytes_read.bind fun _ => BlamesBytes.u1.bind fun length =>
      (hstep.replicate length.toNat).bind fun _ =>
        (blamesBytes_read pool).first _
  exact htyped.counted.first _

end Annotations

theorem Member.blamesBytes_readAttribute (name : String) (m : Member) :
    BlamesBytes (m.readAttribute pool name) := by
  unfold readAttribute
  split
  · exact pool.blamesBytes_readConstant.first _
  · exact .pure _ _
  · exact .pure _ _
  · exact pool.blamesBytes_readText.first _
  · exact pool.blamesBytes_readClass.counted.first _
  · exact (Annotations.blamesBytes_read pool).counted.first _
  · exact (Annotations.blamesBytes_read pool).counted.first _
  · exact BlamesBytes.u1.bind fun parameters =>
      ((Annotations.blamesBytes_read pool).counted.replicate parameters.toNat).first _
  · exact BlamesBytes.u1.bind fun parameters =>
      ((Annotations.blamesBytes_read pool).counted.replicate parameters.toNat).first _
  · exact (Annotations.blamesBytes_readTypedTable pool).first _
  · exact (Annotations.blamesBytes_readTypedTable pool).first _
  · exact (Annotations.blamesBytes_readValue pool).first _
  · exact .pure _ _

theorem Member.blamesBytes_read (kind : MemberKind) (container : ClassId) :
    BlamesBytes (Member.read kind container pool) := by
  have hattribute (m : Member) : BlamesBytes (Member.readNextAttribute pool m) :=
    pool.blamesBytes_readText.bind fun name => BlamesBytes.u4.bind fun length =>
      (blamesBytes_readAttribute pool name m).within length.toNat
  exact BlamesBytes.u2.bind fun flags => pool.blamesBytes_readText.bind fun name =>
    pool.blamesBytes_readText.bind fun descriptor => BlamesBytes.u2.bind fun count =>
      .iterate hattribute count.toNat _

namespace ClassAttributes

theorem blamesBytes_readInner (table : InnerTable) : BlamesBytes (readInner pool table) := by
  refine BlamesBytes.u2.bind fun inner => BlamesBytes.u2.bind fun outer =>
    BlamesBytes.u2.bind fun _ => BlamesBytes.u2.bind fun flags => ?_
  split
  · exact .pure table _
  · exact (Fails.ofExcept (pool.ofBytes_classAt inner)).bind fun _ =>
      (Fails.ofExcept (pool.ofBytes_classAt outer)).first _

theorem blamesBytes_readBody (name : String) (a : ClassAttributes) :
    BlamesBytes (a.readBody pool name) := by
  unfold readBody
  split
  · exact BlamesBytes.u2.bind fun count =>
      (Fails.iterate (blamesBytes_readInner pool) count.toNat _).first _
  · exact pool.blamesBytes_readText.first _
  · exact (Annotations.blamesBytes_read pool).counted.first _
  · exact (Annotations.blamesBytes_read pool).counted.first _
  · exact (Annotations.blamesBytes_readTypedTable pool).first _
  · exact (Annotations.blamesBytes_readTypedTable pool).first _
  · exact .pure a _

theorem blamesBytes_read : BlamesBytes (ClassAttributes.read pool) := by
  have hattribute (a : ClassAttributes) : BlamesBytes (readNext pool a) :=
    pool.blamesBytes_readText.bind fun name => BlamesBytes.u4.bind fun length =>
      (blamesBytes_readBody pool name a).within length.toNat
  exact BlamesBytes.u2.bind fun count => .iterate hattribute count.toNat _

end ClassAttributes

namespace ClassFile

theorem blamesBytes_readOptionalClass : BlamesBytes (readOptionalClass pool) := by
  refine BlamesBytes.u2.bind fun index => ?_
  split
  · exact .pure none _
  · exact (Fails.ofExcept (pool.ofBytes_classAt index)).first _

theorem blamesBytes_checkIdentity (expected : Option ClassId) (found : ClassId) :
    BlamesBytes (checkIdentity expected found) := by
  cases expected with
  | none => exact .pure () _
  | some id =>
    unfold checkIdentity
    dsimp only
    split
    · exact .pure () _
    · exact .throw rfl

theorem blamesBytes_read (expected : Option ClassId) : BlamesBytes (ClassFile.read expected) := by
  refine BlamesBytes.u4.bind fun start => ?_
  split
  · exact BlamesBytes.throw_bind rfl _
  · refine BlamesBytes.u2.bind fun minorVersion => BlamesBytes.u2.bind fun majorVersion =>
      ConstantPool.blamesBytes_read.bind fun pool => BlamesBytes.u2.bind fun flags =>
        pool.blamesBytes_readClass.bind fun id => ?_
    refine (blamesBytes_checkIdentity expected id).bind fun _ =>
      (blamesBytes_readOptionalClass pool).bind fun superclass =>
        pool.blamesBytes_readClass.counted.bind fun interfaces => ?_
    refine (Member.blamesBytes_read pool .field id).counted.bind fun fields =>
      (Member.blamesBytes_read pool .method id).counted.bind fun methods => ?_
    exact (ClassAttributes.blamesBytes_read pool).first _

/-- Decoding fails because of the bytes, and never because a file is missing. -/
theorem ofBytes_decode (expected : Option ClassId) (bytes : List UInt8) :
    OfBytes (decode expected bytes) := by
  unfold decode
  split
  · exact .ok _ _
  · next e stop hread => exact .error (blamesBytes_read expected _ _ _ hread)

end ClassFile

end ClassAtlas
