import ClassAtlas.Proofs.ClassFile.Frame
import ClassAtlas.Proofs.Decoder.Refinement

/-!
# Profiles of rows of class files

A row of class files has a profile when each of its files can be decoded, and the profile holds
what these show. A profile is pinned by that: rows of the same files have the same profile, and
so has the union of the profiles of the single files.
-/

namespace ClassAtlas

namespace Profile

variable {p q : Profile} {files others : List ClassFile} {rows again : List (List UInt8)}

theorem same_iff : p.same q = true ↔ p.publicLines.toList = q.publicLines.toList ∧
    p.packageLines.toList = q.packageLines.toList := by
  simp [same]

theorem Holds.same (hp : p.Holds files) (hq : q.Holds others)
    (h : ∀ c, c ∈ files ↔ c ∈ others) : p.same q = true :=
  same_iff.2 (hp.toList_eq hq h)

theorem Holds.mem_packageLines (h : p.Holds files) {line : String}
    (hline : line ∈ p.publicLines) : line ∈ p.packageLines := by
  obtain ⟨c, hc, level, hshown, -⟩ := (h.mem_public line).1 hline
  exact (h.mem_package line).2 ⟨c, hc, level, hshown⟩

theorem Holds.union (hp : p.Holds files) (hq : q.Holds others) :
    (p.union q).Holds (files ++ others) where
  mem_public line := by
    rw [Profile.union, Std.TreeSet.mem_insertMany_list]
    simp only [List.contains_iff_mem, Std.TreeSet.mem_toList, hp.mem_public, hq.mem_public,
      List.mem_append]
    grind
  mem_package line := by
    rw [Profile.union, Std.TreeSet.mem_insertMany_list]
    simp only [List.contains_iff_mem, Std.TreeSet.mem_toList, hp.mem_package, hq.mem_package,
      List.mem_append]
    grind

theorem Holds.foldl_addTo (h : p.Holds files) (more : List ClassFile) :
    (more.foldl (fun p c => c.addTo p) p).Holds (files ++ more) := by
  induction more generalizing p files with
  | nil => simpa using h
  | cons c more ih => simpa using ih (h.addTo c)

theorem Holds.foldl_union (h : p.Holds files) {singles : List Profile}
    (hsingles : List.Forall₂ (fun c single => Holds single [c]) others singles) :
    (singles.foldl Profile.union p).Holds (files ++ others) := by
  induction hsingles generalizing p files with
  | nil => simpa using h
  | cons hfirst _ ih => simpa using ih (h.union hfirst)

/-- The files are decoded one by one, and then shown in the same order. -/
theorem foldlM_addTo (rows : List (List UInt8)) (p : Profile) :
    rows.foldlM (fun p bytes => return (← ClassFile.decode none bytes).addTo p) p =
      return (← rows.mapM (ClassFile.decode none)).foldl (fun p c => c.addTo p) p := by
  induction rows generalizing p with
  | nil => rfl
  | cons bytes rows ih =>
    rw [List.foldlM_cons, List.mapM_cons]
    cases ClassFile.decode none bytes with
    | error e => rfl
    | ok c =>
      change rows.foldlM _ (c.addTo p) = _
      rw [ih]
      cases rows.mapM (ClassFile.decode none) <;> rfl

theorem ofClassFiles_eq_ok_iff : ofClassFiles rows = .ok p ↔
    ∃ files, rows.mapM (ClassFile.decode none) = .ok files ∧
      p = files.foldl (fun p c => c.addTo p) {} := by
  rw [ofClassFiles, foldlM_addTo, bind_eq_ok_iff]
  simp only [pure, Except.pure, Except.ok.injEq, eq_comm]

theorem holds_of_ofClassFiles (h : ofClassFiles rows = .ok p) :
    ∃ files, rows.mapM (ClassFile.decode none) = .ok files ∧ p.Holds files := by
  obtain ⟨files, hfiles, rfl⟩ := ofClassFiles_eq_ok_iff.1 h
  exact ⟨files, hfiles, by simpa using holds_empty.foldl_addTo files⟩

theorem exists_ofClassFiles_iff : (∃ p, ofClassFiles rows = .ok p) ↔
    ∀ bytes ∈ rows, ∃ c, ClassFile.decode none bytes = .ok c := by
  rw [← exists_mapM_iff]
  constructor
  · rintro ⟨p, hp⟩
    obtain ⟨files, hfiles, -⟩ := ofClassFiles_eq_ok_iff.1 hp
    exact ⟨files, hfiles⟩
  · rintro ⟨files, hfiles⟩
    exact ⟨_, ofClassFiles_eq_ok_iff.2 ⟨files, hfiles, rfl⟩⟩

theorem exists_same_of_mem_iff (hp : ofClassFiles rows = .ok p)
    (h : ∀ bytes, bytes ∈ again ↔ bytes ∈ rows) :
    ∃ q, ofClassFiles again = .ok q ∧ q.same p = true := by
  have hevery := exists_ofClassFiles_iff.1 ⟨p, hp⟩
  obtain ⟨q, hq⟩ := exists_ofClassFiles_iff.2 fun bytes hb => hevery bytes ((h bytes).1 hb)
  obtain ⟨files, hfiles, hpHolds⟩ := holds_of_ofClassFiles hp
  obtain ⟨found, hfound, hqHolds⟩ := holds_of_ofClassFiles hq
  refine ⟨q, hq, hqHolds.same hpHolds fun c => ?_⟩
  rw [mem_of_mapM hfiles, mem_of_mapM hfound]
  simp only [h]

theorem holds_single {bytes : List UInt8} {c : ClassFile}
    (hdecode : ClassFile.decode none bytes = .ok c) (hp : ofClassFiles [bytes] = .ok p) :
    p.Holds [c] := by
  obtain ⟨files, hfiles, hholds⟩ := holds_of_ofClassFiles hp
  rw [mapM_eq_ok_iff, List.forall₂_cons_left_iff] at hfiles
  obtain ⟨d, rest, hd, hnil, rfl⟩ := hfiles
  rw [hdecode, Except.ok.injEq] at hd
  cases hnil
  exact hd ▸ hholds

/-- The profiles of the single files make up the profile of the row. -/
theorem exists_singles (hp : ofClassFiles rows = .ok p) :
    ∃ singles, rows.mapM (fun bytes => ofClassFiles [bytes]) = .ok singles ∧
      (singles.foldl Profile.union {}).same p = true := by
  obtain ⟨files, hfiles, hholds⟩ := holds_of_ofClassFiles hp
  obtain ⟨singles, hsingles⟩ : ∃ singles,
      rows.mapM (fun bytes => ofClassFiles [bytes]) = .ok singles := by
    rw [exists_mapM_iff]
    intro bytes hb
    rw [exists_ofClassFiles_iff]
    simpa using exists_ofClassFiles_iff.1 ⟨p, hp⟩ bytes hb
  have heach : List.Forall₂ (fun c single => Holds single [c]) files singles := by
    rw [mapM_eq_ok_iff] at hfiles hsingles
    clear hholds hp
    induction hfiles generalizing singles with
    | nil =>
      cases hsingles
      exact .nil
    | cons hdecode _ ih =>
      obtain ⟨single, singles, hsingle, hrest, rfl⟩ := List.forall₂_cons_left_iff.1 hsingles
      exact .cons (holds_single hdecode hsingle) (ih singles hrest)
  have hunion : (singles.foldl Profile.union {}).Holds files := by
    simpa using holds_empty.foldl_union heach
  exact ⟨singles, hsingles, hunion.same hholds fun c => Iff.rfl⟩

end Profile

namespace ClassFile

/-- A file that holds the expected class is decoded alike when nothing is expected. -/
theorem decode_none_of_decode {expected : Option ClassId} {bytes : List UInt8} {c : ClassFile}
    (h : decode expected bytes = .ok c) : decode none bytes = .ok c := by
  have hidentity (found : ClassId) :
      Refines (checkIdentity expected found) (checkIdentity none found) := by
    intro start a stop hcheck
    cases expected with
    | none => exact hcheck
    | some id =>
      dsimp only [checkIdentity] at hcheck
      by_cases hid : (id == found) = true
      · rwa [if_pos hid] at hcheck
      · rw [if_neg hid] at hcheck
        contradiction
  have hread : Refines (read expected) (read none) := by
    unfold read
    refine .next fun start => ?_
    split
    · exact .refl _
    · exact .next fun _ => .next fun _ => .next fun pool => .next fun _ => .next fun id =>
        (hidentity id).first _
  rw [ClassFrame.decode_eq_alone] at h ⊢
  exact hread.alone h

end ClassFile

end ClassAtlas
