import ClassAtlas.Text.ModifiedUtf8

/-!
# Texts read back from modified UTF-8

The groups of bytes of a list of units split into these units again, and the units of a
list of characters join to these characters again: a character of the basic plane is no
surrogate, and the two surrogates of another character find each other.
-/

namespace ClassAtlas.Text.ModifiedUtf8

/-! ### Groups -/

theorem unitsFrom_one {a : UInt8} (ha : a.toNat < 0x80) (index : Nat) (seen : List Nat)
    (rest : List UInt8) :
    unitsFrom index seen (a :: rest) = unitsFrom (index + 1) (a.toNat :: seen) rest := by
  cases rest with
  | nil => rw [unitsFrom.eq_2, if_pos ha]
  | cons b rest => rw [unitsFrom.eq_3, if_pos ha]

theorem unitsFrom_two {a b : UInt8} (ha : a.toNat / 32 = 6) (hb : isContinuation b)
    (index : Nat) (seen : List Nat) (rest : List UInt8) :
    unitsFrom index seen (a :: b :: rest) = unitsFrom (index + 2) (pairUnit a b :: seen) rest := by
  have hlead : ¬ a.toNat < 0x80 := by omega
  rw [unitsFrom.eq_3, if_neg hlead, if_pos (by simpa using ha), if_pos hb]

theorem unitsFrom_three {a b c : UInt8} (ha : a.toNat / 16 = 14) (hb : isContinuation b)
    (hc : isContinuation c) (index : Nat) (seen : List Nat) (rest : List UInt8) :
    unitsFrom index seen (a :: b :: c :: rest) =
      unitsFrom (index + 3) (tripleUnit a b c :: seen) rest := by
  have hlead : ¬ a.toNat < 0x80 := by omega
  have hpair : ¬ (a.toNat / 32 == 6) = true := by
    simp only [beq_iff_eq]
    omega
  rw [unitsFrom.eq_3, if_neg hlead, if_neg hpair, if_pos (by simpa using ha)]
  dsimp only
  rw [if_pos hb, if_pos hc]

theorem isContinuation_ofNat {n : Nat} (h : n < 64) : isContinuation (.ofNat (0x80 + n)) := by
  simp only [isContinuation, UInt8.toNat_ofNat', beq_iff_eq]
  omega

theorem unitsFrom_group {u : Nat} (h : u < 0x10000) (index : Nat) (seen : List Nat)
    (rest : List UInt8) :
    unitsFrom index seen (group u ++ rest) =
      unitsFrom (index + (group u).length) (u :: seen) rest := by
  unfold group
  split
  · next hone =>
    simp only [bne_iff_ne, Bool.and_eq_true, decide_eq_true_eq] at hone
    have hbyte : (UInt8.ofNat u).toNat = u := by
      rw [UInt8.toNat_ofNat']
      omega
    rw [List.singleton_append, unitsFrom_one (by omega), hbyte]
    rfl
  · split
    · next htwo =>
      have hunit : pairUnit (.ofNat (0xC0 + u / 64)) (.ofNat (0x80 + u % 64)) = u := by
        simp only [pairUnit, UInt8.toNat_ofNat']
        omega
      have hlead : (UInt8.ofNat (0xC0 + u / 64)).toNat / 32 = 6 := by
        rw [UInt8.toNat_ofNat']
        omega
      have hlast := isContinuation_ofNat (Nat.mod_lt u (by decide : 0 < 64))
      have hsplit := unitsFrom_two hlead hlast index seen rest
      rw [hunit] at hsplit
      exact hsplit
    · have hunit : tripleUnit (.ofNat (0xE0 + u / 4096)) (.ofNat (0x80 + u / 64 % 64))
          (.ofNat (0x80 + u % 64)) = u := by
        simp only [tripleUnit, UInt8.toNat_ofNat']
        omega
      have hlead : (UInt8.ofNat (0xE0 + u / 4096)).toNat / 16 = 14 := by
        rw [UInt8.toNat_ofNat']
        omega
      have hmiddle := isContinuation_ofNat (Nat.mod_lt (u / 64) (by decide : 0 < 64))
      have hlast := isContinuation_ofNat (Nat.mod_lt u (by decide : 0 < 64))
      have hsplit := unitsFrom_three hlead hmiddle hlast index seen rest
      rw [hunit] at hsplit
      exact hsplit

theorem unitsFrom_flatMap_group (us : List Nat) (h : ∀ u ∈ us, u < 0x10000) (index : Nat)
    (seen : List Nat) : unitsFrom index seen (us.flatMap group) = .ok (seen.reverse ++ us) := by
  induction us generalizing index seen with
  | nil => simp [unitsFrom.eq_1]
  | cons u us ih =>
    rw [List.flatMap_cons, unitsFrom_group (h u List.mem_cons_self),
      ih fun v hv => h v (List.mem_cons_of_mem u hv)]
    simp

/-! ### Characters -/

theorem toNat_cases (c : Char) : c.toNat < 0xD800 ∨ 0xDFFF < c.toNat ∧ c.toNat < 0x110000 :=
  c.valid

theorem lt_of_mem_unitsOf {c : Char} {u : Nat} (hu : u ∈ unitsOf c) : u < 0x10000 := by
  have hc := toNat_cases c
  unfold unitsOf at hu
  split at hu
  · next hbasic =>
    rw [List.mem_singleton.1 hu]
    exact hbasic
  · simp only [List.mem_cons, List.not_mem_nil, or_false] at hu
    omega

/-- The units of a character are joined to it. -/
theorem ofUnitsAfter_unitsOf (c : Char) (seen : List Char) (rest : List Nat) :
    ofUnitsAfter seen (unitsOf c ++ rest) = ofUnitsAfter (c :: seen) rest := by
  have hc := toNat_cases c
  unfold unitsOf
  split
  · next hbasic =>
    have hhigh : isHighSurrogate c.toNat = false := by
      simp only [isHighSurrogate, beq_eq_false_iff_ne]
      omega
    have hlow : isLowSurrogate c.toNat = false := by
      simp only [isLowSurrogate, beq_eq_false_iff_ne]
      omega
    cases rest with
    | nil => simp [ofUnitsAfter, hhigh, hlow]
    | cons v rest => simp [ofUnitsAfter, hhigh, hlow]
  · next hbeyond =>
    have hhigh : isHighSurrogate (0xD800 + (c.toNat - 0x10000) / 0x400) = true := by
      simp only [isHighSurrogate, beq_iff_eq]
      omega
    have hlow : isLowSurrogate (0xDC00 + (c.toNat - 0x10000) % 0x400) = true := by
      simp only [isLowSurrogate, beq_iff_eq]
      omega
    have hjoined : joined (0xD800 + (c.toNat - 0x10000) / 0x400)
        (0xDC00 + (c.toNat - 0x10000) % 0x400) = c := by
      unfold joined
      rw [show 0x10000 + (0xD800 + (c.toNat - 0x10000) / 0x400) % 0x400 * 0x400 +
        (0xDC00 + (c.toNat - 0x10000) % 0x400) % 0x400 = c.toNat by omega, Char.ofNat_toNat]
    rw [List.cons_append, List.singleton_append, ofUnitsAfter.eq_3, if_pos hhigh, if_pos hlow,
      hjoined]

theorem ofUnitsAfter_flatMap_unitsOf (cs seen : List Char) :
    ofUnitsAfter seen (cs.flatMap unitsOf) = seen.reverse ++ cs := by
  induction cs generalizing seen with
  | nil => simp [ofUnitsAfter]
  | cons c cs ih =>
    rw [List.flatMap_cons, ofUnitsAfter_unitsOf, ih]
    simp

/-- Every text is read back from its modified UTF-8. -/
theorem decode_encode (text : String) : decode (encode text) = .ok text := by
  have hunits : units (encode text) = .ok (text.toList.flatMap unitsOf) := by
    refine unitsFrom_flatMap_group _ ?_ 0 []
    intro u hu
    obtain ⟨c, -, hc⟩ := List.mem_flatMap.1 hu
    exact lt_of_mem_unitsOf hc
  have hchars : ofUnits (text.toList.flatMap unitsOf) = text.toList :=
    ofUnitsAfter_flatMap_unitsOf text.toList []
  rw [decode, hunits]
  simp [Except.map, hchars]

end ClassAtlas.Text.ModifiedUtf8
