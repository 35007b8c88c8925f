import Mathlib.Algebra.GroupWithZero.Nat
import Mathlib.Data.String.Basic
import ClassAtlas.Proofs.Decoder.Outcome
import ClassAtlas.Proofs.Text.ModifiedUtf8

/-!
# Well-formed modified UTF-8

What the decoder takes is a row of groups of bytes, and no more is asked of it: a group may
be longer than its unit needs, and a surrogate may stand alone. A byte string that is no such
row has a first byte at which no row of groups goes on, and the decoder names that byte. The
text of a row takes at most as many bytes in UTF-8 as the row has.
-/

namespace ClassAtlas.Text.ModifiedUtf8

/-- A byte `10xxxxxx`. -/
def IsTail (b : UInt8) : Prop :=
  0x80 ≤ b.toNat ∧ b.toNat < 0xC0

/-- A group of bytes by its bits. -/
inductive IsGroup : List UInt8 → Prop
  /-- `0xxxxxxx` -/
  | one {a : UInt8} (ha : a.toNat < 0x80) : IsGroup [a]
  /-- `110xxxxx 10xxxxxx` -/
  | two {a b : UInt8} (ha : 0xC0 ≤ a.toNat ∧ a.toNat < 0xE0) (hb : IsTail b) : IsGroup [a, b]
  /-- `1110xxxx 10xxxxxx 10xxxxxx` -/
  | three {a b c : UInt8} (ha : 0xE0 ≤ a.toNat ∧ a.toNat < 0xF0) (hb : IsTail b)
      (hc : IsTail c) : IsGroup [a, b, c]

inductive IsGrouped : List UInt8 → Prop
  | nil : IsGrouped []
  | cons {group rest : List UInt8} (hgroup : IsGroup group) (hrest : IsGrouped rest) :
      IsGrouped (group ++ rest)

/-- Whether a row of groups starts with these bytes. -/
def GoesOn (bytes : List UInt8) : Prop :=
  ∃ more, IsGrouped (bytes ++ more)

/-- The bytes before the index can go on to a row of groups. With the byte at the index they
cannot, or else that byte is missing. -/
structure IsFirstFault (bytes : List UInt8) (index : Nat) : Prop where
  index_le : index ≤ bytes.length
  goesOn : GoesOn (bytes.take index)
  stops : index < bytes.length → ¬ GoesOn (bytes.take (index + 1))
  missing : index = bytes.length → ¬ IsGrouped bytes

/-! ### Rows of groups are split -/

theorem isContinuation_iff {b : UInt8} : isContinuation b = true ↔ IsTail b := by
  rw [isContinuation, beq_iff_eq, IsTail]
  omega

/-- The bytes of a unit in UTF-8, or of what stands for it. -/
def unitSize (u : Nat) : Nat :=
  if u < 0x80 then 1 else if u < 0x800 then 2 else 3

/-- A group is split off as a unit that is no longer than the group. -/
theorem IsGroup.exists_unit {group : List UInt8} (h : IsGroup group) :
    ∃ u, u < 0x10000 ∧ unitSize u ≤ group.length ∧ ∀ index seen rest,
      unitsFrom index seen (group ++ rest) =
        unitsFrom (index + group.length) (u :: seen) rest := by
  cases h with
  | @one a ha =>
    have hsize : unitSize a.toNat = 1 := if_pos ha
    exact ⟨a.toNat, by omega, hsize.le, unitsFrom_one ha⟩
  | @two a b ha hb =>
    have hunit : pairUnit a b < 0x800 := by
      unfold pairUnit
      omega
    have hsize : unitSize (pairUnit a b) ≤ 2 := by
      unfold unitSize
      split_ifs <;> omega
    exact ⟨pairUnit a b, by omega, hsize,
      unitsFrom_two (by omega) (isContinuation_iff.2 hb)⟩
  | @three a b c ha hb hc =>
    have hunit : tripleUnit a b c < 0x10000 := by
      unfold tripleUnit
      omega
    have hsize : unitSize (tripleUnit a b c) ≤ 3 := by
      unfold unitSize
      split_ifs <;> omega
    exact ⟨tripleUnit a b c, hunit, hsize,
      unitsFrom_three (by omega) (isContinuation_iff.2 hb) (isContinuation_iff.2 hc)⟩

theorem IsGrouped.exists_units {bytes : List UInt8} (h : IsGrouped bytes) :
    ∃ us : List Nat, (∀ u ∈ us, u < 0x10000) ∧ (us.map unitSize).sum ≤ bytes.length ∧
      ∀ index seen rest, unitsFrom index seen (bytes ++ rest) =
        unitsFrom (index + bytes.length) (us.reverse ++ seen) rest := by
  induction h with
  | nil => exact ⟨[], by simp, by simp, fun _ _ _ => rfl⟩
  | @cons group rest hgroup _ ih =>
    obtain ⟨u, hu, hsize, hsplit⟩ := hgroup.exists_unit
    obtain ⟨us, hus, hsizes, hsplits⟩ := ih
    refine ⟨u :: us, List.forall_mem_cons.2 ⟨hu, hus⟩, ?_, fun index seen more => ?_⟩
    · rw [List.map_cons, List.sum_cons, List.length_append]
      omega
    · rw [List.append_assoc, hsplit, hsplits, List.length_append, List.reverse_cons,
        List.append_assoc, List.singleton_append, Nat.add_assoc]

theorem IsGroup.isGrouped {group : List UInt8} (h : IsGroup group) : IsGrouped group := by
  have hone := IsGrouped.cons h .nil
  rwa [List.append_nil] at hone

theorem IsGrouped.append {bytes more : List UInt8} (h : IsGrouped bytes)
    (hmore : IsGrouped more) : IsGrouped (bytes ++ more) := by
  induction h with
  | nil => exact hmore
  | cons hgroup _ ih =>
    rw [List.append_assoc]
    exact .cons hgroup ih

/-! ### Where no group stands -/

/-- No group stands at the front of the bytes, because of the byte at this index: a byte that
no group starts with, or something else than a byte `10xxxxxx` where the group needs one. -/
inductive IsBrokenAt : Nat → List UInt8 → Prop
  | lead {a : UInt8} {rest : List UInt8}
      (ha : 0x80 ≤ a.toNat ∧ a.toNat < 0xC0 ∨ 0xF0 ≤ a.toNat) : IsBrokenAt 0 (a :: rest)
  | second {a : UInt8} {rest : List UInt8} (ha : 0xC0 ≤ a.toNat ∧ a.toNat < 0xF0)
      (hrest : ∀ b ∈ rest.head?, ¬ IsTail b) : IsBrokenAt 1 (a :: rest)
  | third {a b : UInt8} {rest : List UInt8} (ha : 0xE0 ≤ a.toNat ∧ a.toNat < 0xF0)
      (hb : IsTail b) (hrest : ∀ c ∈ rest.head?, ¬ IsTail c) : IsBrokenAt 2 (a :: b :: rest)

theorem exists_tail_or (bytes : List UInt8) :
    (∃ b rest, IsTail b ∧ bytes = b :: rest) ∨ ∀ b ∈ bytes.head?, ¬ IsTail b := by
  cases bytes with
  | nil => exact .inr (by simp)
  | cons b rest =>
    by_cases hb : IsTail b
    · exact .inl ⟨b, rest, hb, rfl⟩
    · exact .inr (by simpa using hb)

/-- Bytes start with a group, or else one of them is the first that rules a group out. -/
theorem exists_group_or_isBrokenAt (a : UInt8) (bytes : List UInt8) :
    (∃ group rest, IsGroup group ∧ a :: bytes = group ++ rest) ∨
      ∃ k, IsBrokenAt k (a :: bytes) := by
  have hbyte := a.toNat_lt
  by_cases hone : a.toNat < 0x80
  · exact .inl ⟨[a], bytes, .one hone, rfl⟩
  by_cases hlead : 0xC0 ≤ a.toNat ∧ a.toNat < 0xF0
  · rcases exists_tail_or bytes with ⟨b, rest, hb, rfl⟩ | hmissing
    · by_cases htwo : a.toNat < 0xE0
      · exact .inl ⟨[a, b], rest, .two ⟨hlead.1, htwo⟩ hb, rfl⟩
      · have hthree : 0xE0 ≤ a.toNat ∧ a.toNat < 0xF0 := ⟨by omega, hlead.2⟩
        rcases exists_tail_or rest with ⟨c, rest, hc, rfl⟩ | hmissing
        · exact .inl ⟨[a, b, c], rest, .three hthree hb hc, rfl⟩
        · exact .inr ⟨2, .third hthree hb hmissing⟩
    · exact .inr ⟨1, .second hlead hmissing⟩
  · exact .inr ⟨0, .lead (by omega)⟩

/-- Every byte string is a row of groups and then nothing or no group. -/
theorem isGrouped_or_exists_isBrokenAt (bytes : List UInt8) :
    IsGrouped bytes ∨
      ∃ front k back, IsGrouped front ∧ IsBrokenAt k back ∧ bytes = front ++ back := by
  induction hlength : bytes.length using Nat.strong_induction_on generalizing bytes with
  | _ length ih =>
    cases bytes with
    | nil => exact .inl .nil
    | cons a bytes =>
      rcases exists_group_or_isBrokenAt a bytes with ⟨group, rest, hgroup, hbytes⟩ | ⟨k, hbroken⟩
      · have hshorter : rest.length < length := by
          have hpositive : 0 < group.length := by cases hgroup <;> simp
          rw [← hlength, hbytes, List.length_append]
          omega
        rw [hbytes]
        rcases ih rest.length hshorter rest rfl with hrest | ⟨front, k, back, hfront, hback, rfl⟩
        · exact .inl (.cons hgroup hrest)
        · exact .inr ⟨group ++ front, k, back, .cons hgroup hfront, hback,
            (List.append_assoc _ _ _).symm⟩
      · exact .inr ⟨[], k, a :: bytes, .nil, hbroken, rfl⟩

theorem unitsFrom_of_isBrokenAt {k : Nat} {bytes : List UInt8} (h : IsBrokenAt k bytes)
    (index : Nat) (seen : List Nat) : unitsFrom index seen bytes = .error (index + k) := by
  have hnot {b : UInt8} (hb : ¬ IsTail b) : isContinuation b = false := by
    simpa using mt isContinuation_iff.1 hb
  cases h with
  | @lead a rest ha =>
    have hone : ¬ a.toNat < 0x80 := by omega
    have htwo : ¬ a.toNat / 32 = 6 := by omega
    have hthree : ¬ a.toNat / 16 = 14 := by omega
    cases rest <;> simp [unitsFrom, hone, htwo, hthree]
  | @second a rest ha hrest =>
    have hone : ¬ a.toNat < 0x80 := by omega
    have hlead : a.toNat / 32 = 6 ∨ a.toNat / 16 = 14 := by omega
    cases rest with
    | nil => rcases hlead with h | h <;> simp [unitsFrom, hone, h]
    | cons b rest =>
      have hb := hnot (hrest b rfl)
      cases rest <;> rcases hlead with h | h <;> simp [unitsFrom, hone, h, hb]
  | @third a b rest ha hb hrest =>
    have hone : ¬ a.toNat < 0x80 := by omega
    have htwo : ¬ a.toNat / 32 = 6 := by omega
    have hthree : a.toNat / 16 = 14 := by omega
    have hb := isContinuation_iff.2 hb
    cases rest with
    | nil => simp [unitsFrom, hone, htwo, hthree, hb]
    | cons c rest =>
      have hc := hnot (hrest c rfl)
      simp [unitsFrom, hone, htwo, hthree, hb, hc]

/-- A group that is cut off where it is broken can be made whole. -/
theorem IsBrokenAt.goesOn {k : Nat} {bytes : List UInt8} (h : IsBrokenAt k bytes) :
    k ≤ bytes.length ∧ GoesOn (bytes.take k) := by
  have htail : IsTail 0x80 := ⟨by decide, by decide⟩
  cases h with
  | lead ha => exact ⟨Nat.zero_le _, [], .nil⟩
  | @second a rest ha hrest =>
    refine ⟨by simp, ?_⟩
    by_cases htwo : a.toNat < 0xE0
    · exact ⟨[0x80], (IsGroup.two ⟨ha.1, htwo⟩ htail).isGrouped⟩
    · exact ⟨[0x80, 0x80], (IsGroup.three ⟨by omega, ha.2⟩ htail htail).isGrouped⟩
  | third ha hb hrest => exact ⟨by simp, [0x80], (IsGroup.three ha hb htail).isGrouped⟩

theorem IsBrokenAt.take_append {k : Nat} {bytes : List UInt8} (h : IsBrokenAt k bytes)
    (hlength : k < bytes.length) (more : List UInt8) :
    IsBrokenAt k (bytes.take (k + 1) ++ more) := by
  cases h with
  | lead ha => exact .lead ha
  | @second a rest ha hrest =>
    cases rest with
    | nil => simp at hlength
    | cons b rest => exact .second ha hrest
  | @third a b rest ha hb hrest =>
    cases rest with
    | nil => simp at hlength
    | cons c rest => exact .third ha hb hrest

/-! ### What the decoder takes -/

/-- Splitting fails at the byte that breaks the first group that is none. -/
theorem units_append_of_isBrokenAt {front back : List UInt8} {k : Nat} (hfront : IsGrouped front)
    (hback : IsBrokenAt k back) : units (front ++ back) = .error (front.length + k) := by
  obtain ⟨us, -, -, hsplits⟩ := hfront.exists_units
  rw [units, hsplits, unitsFrom_of_isBrokenAt hback, Nat.zero_add]

theorem units_of_isGrouped {bytes : List UInt8} (h : IsGrouped bytes) :
    ∃ us : List Nat, units bytes = .ok us ∧ (∀ u ∈ us, u < 0x10000) ∧
      (us.map unitSize).sum ≤ bytes.length := by
  obtain ⟨us, hus, hsize, hsplits⟩ := h.exists_units
  refine ⟨us, ?_, hus, hsize⟩
  have hall := hsplits 0 [] []
  rw [List.append_nil, List.append_nil] at hall
  rw [units, hall, unitsFrom.eq_1, List.reverse_reverse]

theorem isGrouped_iff {bytes : List UInt8} : IsGrouped bytes ↔ ∃ us, units bytes = .ok us := by
  constructor
  · intro h
    obtain ⟨us, hus, -⟩ := units_of_isGrouped h
    exact ⟨us, hus⟩
  · rintro ⟨us, hus⟩
    rcases isGrouped_or_exists_isBrokenAt bytes with h | ⟨front, k, back, hfront, hback, rfl⟩
    · exact h
    · rw [units_append_of_isBrokenAt hfront hback] at hus
      contradiction

theorem isFirstFault_of_units {bytes : List UInt8} {index : Nat} (h : units bytes = .error index) :
    IsFirstFault bytes index := by
  have hnot : ¬ IsGrouped bytes := by
    rw [isGrouped_iff, h]
    simp
  obtain ⟨front, k, back, hfront, hback, rfl⟩ :=
    (isGrouped_or_exists_isBrokenAt bytes).resolve_left hnot
  rw [units_append_of_isBrokenAt hfront hback, Except.error.injEq] at h
  obtain rfl := h
  obtain ⟨hle, more, hmore⟩ := hback.goesOn
  have htake (count : Nat) :
      (front ++ back).take (front.length + count) = front ++ back.take count := by
    rw [List.take_length_add_append]
  refine ⟨by rw [List.length_append]; omega, ⟨more, ?_⟩, fun hlt => ?_, fun _ => hnot⟩
  · rw [htake, List.append_assoc]
    exact hfront.append hmore
  · rintro ⟨others, hothers⟩
    have hinside : k < back.length := by
      rw [List.length_append] at hlt
      omega
    have hbroken := hback.take_append hinside others
    rw [Nat.add_assoc, htake, List.append_assoc, isGrouped_iff,
      units_append_of_isBrokenAt hfront hbroken] at hothers
    simp at hothers

theorem GoesOn.take {bytes : List UInt8} {shorter longer : Nat} (h : GoesOn (bytes.take longer))
    (hle : shorter ≤ longer) : GoesOn (bytes.take shorter) := by
  obtain ⟨more, hmore⟩ := h
  rw [← Nat.min_eq_left hle, ← List.take_take]
  refine ⟨(bytes.take longer).drop shorter ++ more, ?_⟩
  rwa [← List.append_assoc, List.take_append_drop]

theorem IsFirstFault.le {bytes : List UInt8} {i j : Nat} (hi : IsFirstFault bytes i)
    (hj : IsFirstFault bytes j) : i ≤ j := by
  by_contra hlt
  have hnext : j + 1 ≤ i := by omega
  have hle := hi.index_le
  exact hj.stops (by omega) (hi.goesOn.take hnext)

theorem IsFirstFault.not_isGrouped {bytes : List UInt8} {index : Nat}
    (h : IsFirstFault bytes index) : ¬ IsGrouped bytes := by
  intro hgrouped
  rcases h.index_le.lt_or_eq with hlt | heq
  · refine h.stops hlt ⟨bytes.drop (index + 1), ?_⟩
    rwa [List.take_append_drop]
  · exact h.missing heq hgrouped

/-- Splitting fails exactly at the first fault. -/
theorem units_eq_error_iff {bytes : List UInt8} {index : Nat} :
    units bytes = .error index ↔ IsFirstFault bytes index := by
  refine ⟨isFirstFault_of_units, fun h => ?_⟩
  cases hunits : units bytes with
  | ok us => exact absurd (isGrouped_iff.2 ⟨us, hunits⟩) h.not_isGrouped
  | error other =>
    have hother := isFirstFault_of_units hunits
    rw [Nat.le_antisymm (hother.le h) (h.le hother)]

/-! ### How long the text is -/

theorem utf8Size_eq (c : Char) :
    c.utf8Size = if c.toNat < 0x10000 then unitSize c.toNat else 4 := by
  simp only [Char.utf8Size, UInt32.le_iff_toNat_le, unitSize]
  change (if c.toNat ≤ 127 then 1 else if c.toNat ≤ 2047 then 2 else
    if c.toNat ≤ 65535 then 3 else 4) = _
  split_ifs <;> omega

theorem utf8Size_ofNat {u : Nat} (h : u < 0x10000) : (Char.ofNat u).utf8Size ≤ unitSize u := by
  by_cases hvalid : u.isValidChar
  · have hvalue : (Char.ofNat u).toNat = u := by
      rw [Char.ofNat, dif_pos hvalid]
      rfl
    rw [utf8Size_eq, hvalue, if_pos h]
  · have hnull : Char.ofNat u = '\x00' := by
      rw [Char.ofNat, dif_neg hvalid]
      rfl
    have hone : '\x00'.utf8Size = 1 := rfl
    rw [hnull, hone, unitSize]
    split_ifs <;> omega

/-- A lone surrogate takes as many bytes as what stands for it. -/
theorem utf8Size_replacement {u : Nat} (h : isHighSurrogate u ∨ isLowSurrogate u) :
    replacement.utf8Size = unitSize u := by
  simp only [isHighSurrogate, isLowSurrogate, beq_iff_eq] at h
  have hone : ¬ u < 0x80 := by omega
  have htwo : ¬ u < 0x800 := by omega
  rw [unitSize, if_neg hone, if_neg htwo]
  rfl

theorem utf8Size_joined {u v : Nat} (hu : isHighSurrogate u) (hv : isLowSurrogate v) :
    (joined u v).utf8Size ≤ unitSize u + unitSize v := by
  rw [← utf8Size_replacement (.inl hu), ← utf8Size_replacement (.inr hv)]
  exact (Char.utf8Size_le_four _).trans (by decide)

/-- Where there is room for a unit, there is room for a character that is no longer. -/
theorem le_of_utf8Size_le {c : Char} {u : Nat} (hc : c.utf8Size ≤ unitSize u) {seen : List Char}
    {us : List Nat} {length : Nat}
    (h : length ≤ String.utf8Len (c :: seen) + (us.map unitSize).sum) :
    length ≤ String.utf8Len seen + ((u :: us).map unitSize).sum := by
  rw [String.utf8Len_cons] at h
  rw [List.map_cons, List.sum_cons]
  omega

theorem utf8Len_ofUnitsAfter (seen : List Char) {us : List Nat} (h : ∀ u ∈ us, u < 0x10000) :
    String.utf8Len (ofUnitsAfter seen us) ≤ String.utf8Len seen + (us.map unitSize).sum := by
  fun_induction ofUnitsAfter seen us with
  | case1 seen => simp
  | case2 seen u c =>
    refine le_of_utf8Size_le (c := c) ?_ (by simp)
    by_cases hsurrogate : isHighSurrogate u ∨ isLowSurrogate u
    · have hc : c = replacement := if_pos (by simpa using hsurrogate)
      rw [hc, utf8Size_replacement hsurrogate]
    · have hc : c = Char.ofNat u := if_neg (by simpa using hsurrogate)
      rw [hc]
      exact utf8Size_ofNat (h u List.mem_cons_self)
  | case3 seen u v rest hu hv ih =>
    -- A pair is joined to one character, so both units make room for it.
    have hsize := utf8Size_joined hu hv
    have hrest := ih fun w hw => h w (List.mem_cons_of_mem _ (List.mem_cons_of_mem _ hw))
    simp only [String.utf8Len_cons, List.map_cons, List.sum_cons] at hrest ⊢
    omega
  | case4 seen u v rest hu hv ih =>
    exact le_of_utf8Size_le (utf8Size_replacement (.inl hu)).le
      (ih fun w hw => h w (List.mem_cons_of_mem _ hw))
  | case5 seen u v rest hu hv ih =>
    exact le_of_utf8Size_le (utf8Size_replacement (.inr hv)).le
      (ih fun w hw => h w (List.mem_cons_of_mem _ hw))
  | case6 seen u v rest hu hv ih =>
    exact le_of_utf8Size_le (utf8Size_ofNat (h u List.mem_cons_self))
      (ih fun w hw => h w (List.mem_cons_of_mem _ hw))

/-! ### Texts -/

theorem decode_eq_error_iff {bytes : List UInt8} {index : Nat} :
    decode bytes = .error index ↔ IsFirstFault bytes index := by
  rw [← units_eq_error_iff, decode]
  cases units bytes <;> simp [Except.map]

theorem exists_decode_iff {bytes : List UInt8} :
    (∃ text, decode bytes = .ok text) ↔ IsGrouped bytes := by
  rw [isGrouped_iff, decode]
  cases units bytes <;> simp [Except.map]

theorem utf8ByteSize_le_of_decode {bytes : List UInt8} {text : String}
    (h : decode bytes = .ok text) : text.utf8ByteSize ≤ bytes.length := by
  obtain ⟨us, hus, hbound, hsize⟩ := units_of_isGrouped (exists_decode_iff.1 ⟨text, h⟩)
  rw [decode, hus] at h
  obtain rfl := Except.ok.inj h
  rw [String.utf8ByteSize_ofList]
  have hlength := utf8Len_ofUnitsAfter [] hbound
  rw [String.utf8Len_nil] at hlength
  exact hlength.trans (by omega)

theorem yields_decoded (bytes : List UInt8) :
    Yields (match decode bytes with
      | .ok text => pure text
      | .error index => Decoder.fail (.malformedText index)) []
      ((decode bytes).mapError fun index => .format (.malformedText index)) := by
  cases decode bytes with
  | ok text => exact .pure text
  | error index => exact .ofExcept (.error _)

theorem yields_utf {bytes : List UInt8} (h : bytes.length < 65536) :
    Yields Decoder.utf (u2Bytes (.ofNat bytes.length) ++ bytes)
      ((decode bytes).mapError fun index => .format (.malformedText index)) := by
  refine .after (Decodes.u2 _) ?_
  rw [UInt16.toNat_ofNat_of_lt' h]
  exact (Decodes.block bytes).yields.last fun found _ => yields_decoded found

/-- A byte string has a text exactly if it is a row of groups, and any other is refused at its
first fault, as a malformed text where it stands in a class file. Every text is read back from
its encoding, and no text takes more bytes in UTF-8 than it was decoded from. -/
theorem decodes_exactly_groups (bytes : List UInt8) :
    ((∃ text, decode bytes = .ok text) ↔ IsGrouped bytes) ∧
      (∀ index, decode bytes = .error index ↔ IsFirstFault bytes index) ∧
      (bytes.length < 65536 → ∀ index, IsFirstFault bytes index →
        Decoder.utf.alone (u2Bytes (.ofNat bytes.length) ++ bytes) =
          .error (.format (.malformedText index))) ∧
      (∀ text : String, decode (encode text) = .ok text) ∧
      ∀ text, decode bytes = .ok text → text.utf8ByteSize ≤ bytes.length := by
  refine ⟨exists_decode_iff, fun index => decode_eq_error_iff, fun hlength index hfault => ?_,
    decode_encode, fun text => utf8ByteSize_le_of_decode⟩
  have halone := (yields_utf hlength).alone_eq []
  rw [List.append_nil] at halone
  rw [halone, decode_eq_error_iff.2 hfault]
  rfl

/-- The last group of `a€` lacks its last byte. -/
theorem decodes_exactly_groups_cut :
    IsFirstFault [0x61, 0xE2, 0x82] 3 ∧
      Decoder.utf.alone [0, 3, 0x61, 0xE2, 0x82] = .error (.format (.malformedText 3)) ∧
      ¬ IsGrouped [0x61, 0xE2, 0x82] := by
  obtain ⟨hgrouped, hfaults, hread, -⟩ := decodes_exactly_groups [0x61, 0xE2, 0x82]
  have hfault : IsFirstFault [0x61, 0xE2, 0x82] 3 := (hfaults 3).1 rfl
  refine ⟨hfault, hread (by decide) 3 hfault, ?_⟩
  rw [← hgrouped]
  rintro ⟨text, htext⟩
  cases htext

end ClassAtlas.Text.ModifiedUtf8
