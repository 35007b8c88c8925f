import ClassAtlas.Proofs.Decoder.Decoding

/-!
# Locality of decoders

A decoder that answers has looked at the bytes that it takes and at no others, and it has
needed all of them: behind any bytes it answers the same, and on a proper front part of them
it fails because bytes are missing. `IsLocal` says so of a decoder, and the decoders put
together from local ones are local.
-/

namespace ClassAtlas

variable {α β : Type}

def RunsShort (d : Decoder α) (bytes : List UInt8) : Prop :=
  ∀ offset, ∃ fault c, d ⟨offset, bytes⟩ = .error (.format fault) c ∧ fault.isTruncation = true

/-- The decoder takes these bytes for its answer, and cannot do with fewer. -/
structure Needs (d : Decoder α) (bytes : List UInt8) (a : α) : Prop where
  decodes : Decodes d bytes a
  runsShort {front back : List UInt8} (h : bytes = front ++ back) (hback : back ≠ []) :
    RunsShort d front

/-- Every answer depends on the bytes taken for it, and needs all of them. -/
def IsLocal (d : Decoder α) : Prop :=
  ∀ start a stop, d start = .ok a stop →
    ∃ used, start.rest = used ++ stop.rest ∧ Needs d used a

theorem Cursor.split?_eq_some {c behind : Cursor} {count : Nat} {front : List UInt8}
    (h : c.split? count = some (front, behind)) :
    c.rest = front ++ behind.rest ∧ front.length = count := by
  rw [split?, List.splitAt_eq] at h
  dsimp only at h
  split at h
  · next hlength =>
    obtain ⟨rfl, rfl⟩ := Prod.mk.inj (Option.some.inj h)
    exact ⟨(List.take_append_drop count c.rest).symm, hlength⟩
  · contradiction

theorem Decoder.bind_eq_ok {d : Decoder α} {f : α → Decoder β} {start stop : Cursor} {b : β}
    (h : (d >>= f) start = .ok b stop) :
    ∃ a middle, d start = .ok a middle ∧ f a middle = .ok b stop := by
  change EStateM.bind d f start = _ at h
  unfold EStateM.bind at h
  split at h
  · next a middle hd => exact ⟨a, middle, hd, h⟩
  · contradiction

theorem Decoder.pure_eq_ok {a b : α} {start stop : Cursor}
    (h : (pure a : Decoder α) start = .ok b stop) : b = a ∧ stop = start := by
  change EStateM.Result.ok a start = _ at h
  injection h with ha hstart
  exact ⟨ha.symm, hstart.symm⟩

theorem Decoder.split_eq_ok {d : Decoder (List UInt8)} {width : Nat} {fault : Cursor → Error}
    {after : Cursor → Cursor}
    (h : ∀ c, d c = match c.split? width with
      | some (bytes, c) => .ok bytes c
      | none => .error (fault c) (after c))
    {start stop : Cursor} {bytes : List UInt8} (hd : d start = .ok bytes stop) :
    start.rest = bytes ++ stop.rest ∧ bytes.length = width := by
  rw [h] at hd
  split at hd
  · next found behind hsplit =>
    injection hd with hfound hbehind
    subst hfound hbehind
    exact Cursor.split?_eq_some hsplit
  · contradiction

theorem RunsShort.bind {d : Decoder α} {bytes : List UInt8} (h : RunsShort d bytes)
    (f : α → Decoder β) : RunsShort (d >>= f) bytes := by
  intro offset
  obtain ⟨fault, c, hd, hfault⟩ := h offset
  refine ⟨fault, c, ?_, hfault⟩
  change EStateM.bind d f _ = _
  rw [EStateM.bind, hd]

theorem Decodes.runsShort_bind {d : Decoder α} {f : α → Decoder β} {bytes more : List UInt8} {a : α}
    (hd : Decodes d bytes a) (hf : RunsShort (f a) more) : RunsShort (d >>= f) (bytes ++ more) := by
  intro offset
  obtain ⟨fault, c, hfa, hfault⟩ := hf (offset + bytes.length)
  refine ⟨fault, c, ?_, hfault⟩
  change EStateM.bind d f _ = _
  rw [EStateM.bind, hd]
  exact hfa

theorem Needs.pure (a : α) : Needs (Pure.pure a) [] a where
  decodes := .pure a
  runsShort h hback := absurd (List.append_eq_nil_iff.1 h.symm).2 hback

/-- A cut falls into the bytes of the first decoder or into those of the second. -/
theorem Needs.bind {d : Decoder α} {f : α → Decoder β} {bytes more : List UInt8} {a : α} {b : β}
    (hd : Needs d bytes a) (hf : Needs (f a) more b) : Needs (d >>= f) (bytes ++ more) b where
  decodes := hd.decodes.bind hf.decodes
  runsShort {front back} h hback := by
    obtain ⟨middle, hfront, hmore⟩ | ⟨middle, hbytes, hrest⟩ := List.append_eq_append_iff.1 h
    · rw [hfront]
      exact hd.decodes.runsShort_bind (hf.runsShort hmore hback)
    · cases middle with
      | nil =>
        rw [List.append_nil] at hbytes
        rw [← hbytes, ← List.append_nil bytes]
        exact hd.decodes.runsShort_bind (hf.runsShort hrest.symm hback)
      | cons byte middle => exact (hd.runsShort hbytes (List.cons_ne_nil _ _)).bind f

namespace IsLocal

theorem pure (a : α) : IsLocal (Pure.pure a) := by
  intro start b stop h
  obtain ⟨rfl, rfl⟩ := Decoder.pure_eq_ok h
  exact ⟨[], rfl, .pure b⟩

theorem throw (e : Error) : IsLocal (MonadExcept.throw e : Decoder α) := by
  intro start a stop h
  contradiction

theorem throw_bind (e : Error) (f : α → Decoder β) :
    IsLocal ((MonadExcept.throw e : Decoder α) >>= f) := by
  intro start b stop h
  contradiction

theorem bind {d : Decoder α} {f : α → Decoder β} (hd : IsLocal d) (hf : ∀ a, IsLocal (f a)) :
    IsLocal (d >>= f) := by
  intro start b stop h
  obtain ⟨a, middle, ha, hb⟩ := Decoder.bind_eq_ok h
  obtain ⟨used, hused, hneeds⟩ := hd start a middle ha
  obtain ⟨more, hmore, hneedsMore⟩ := hf a middle b stop hb
  refine ⟨used ++ more, ?_, hneeds.bind hneedsMore⟩
  rw [hused, hmore, List.append_assoc]

theorem ofExcept (e : Except Error α) : IsLocal (Decoder.ofExcept e) := by
  cases e with
  | ok a => exact pure a
  | error e => exact throw e

theorem of_split {d : Decoder (List UInt8)} {width : Nat} (fault : Cursor → FormatFault)
    {after : Cursor → Cursor} (hfault : ∀ c, (fault c).isTruncation = true)
    (h : ∀ c, d c = match c.split? width with
      | some (bytes, c) => .ok bytes c
      | none => .error (.format (fault c)) (after c)) : IsLocal d := by
  intro start bytes stop hd
  obtain ⟨hparts, hlength⟩ := Decoder.split_eq_ok h hd
  refine ⟨bytes, hparts, ?_, ?_⟩
  · intro offset rest
    rw [h, ← hlength, Cursor.split?_append]
  · intro front back hbytes hback offset
    have hshort : front.length < width := by
      rw [← hlength, hbytes, List.length_append]
      have := List.length_pos_iff.2 hback
      omega
    refine ⟨fault ⟨offset, front⟩, after ⟨offset, front⟩, ?_, hfault _⟩
    rw [h, Cursor.split?_eq_none_iff.2 hshort]

theorem fixed (width : Nat) : IsLocal (Decoder.fixed width) :=
  of_split (fun _ => .cutShort) (fun _ => rfl) fun _ => rfl

theorem block (length : Nat) : IsLocal (Decoder.block length) :=
  of_split (fun c => .blockTooLong length c.offset c.rest.length) (fun _ => rfl) fun _ => rfl

theorem skip (length : Nat) : IsLocal (Decoder.skip length) :=
  (block length).bind fun _ => pure ()

theorem u1 : IsLocal Decoder.u1 := (fixed 1).bind fun _ => pure _

theorem u2 : IsLocal Decoder.u2 := (fixed 2).bind fun _ => pure _

theorem u4 : IsLocal Decoder.u4 := (fixed 4).bind fun _ => pure _

theorem u8 : IsLocal Decoder.u8 := (fixed 8).bind fun _ => pure _

theorem i4 : IsLocal Decoder.i4 := u4.bind fun _ => pure _

theorem i8 : IsLocal Decoder.i8 := u8.bind fun _ => pure _

theorem utf : IsLocal Decoder.utf := by
  refine u2.bind fun length => (block length.toNat).bind fun bytes => ?_
  split
  · exact pure _
  · exact throw _

/-- A confined decoder sees the whole of its block or nothing, so it need not be local. -/
theorem within (length : Nat) (body : Decoder α) : IsLocal (Decoder.within length body) := by
  refine (block length).bind fun bytes => ?_
  split
  · exact pure _
  · exact throw _

theorem iterate {step : α → Decoder α} (h : ∀ a, IsLocal (step a)) (count : Nat) (a : α) :
    IsLocal (Decoder.iterate step count a) := by
  induction count generalizing a with
  | zero => exact pure a
  | succ count ih => exact (h a).bind ih

theorem replicate {item : Decoder α} (h : IsLocal item) (count : Nat) :
    IsLocal (Decoder.replicate count item) :=
  (iterate (fun _ => h.bind fun _ => pure _) count []).bind fun _ => pure _

theorem counted {item : Decoder α} (h : IsLocal item) : IsLocal (Decoder.counted item) :=
  u2.bind fun count => h.replicate count.toNat

end IsLocal

end ClassAtlas
