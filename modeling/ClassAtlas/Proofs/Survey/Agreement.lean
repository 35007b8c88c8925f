import ClassAtlas.Proofs.Profile.Rows
import ClassAtlas.Proofs.Survey.RootOrder

/-!
# Profiles of surveys

A survey that finishes has collected the lines of the classes of the tree that it knows, and
of no others. Going through the class files of these classes, in any order and without a
survey, comes to the same profile.
-/

namespace ClassAtlas

namespace Survey

variable {load : ClassName → Except Error (List UInt8)} {probe : Probe} {followsMembers : Bool}
  {roots : List ClassId} {t : Survey} {visited : List (ClassName × ClassFile)}

namespace Complete

variable (h : Complete probe load followsMembers roots t visited)
include h

/-- The class files that were taken in are those of the classes of the tree. -/
theorem mem_visited_iff (c : ClassFile) : c ∈ visited.map Prod.snd ↔
    ∃ x ∈ t.frontier.internal, IsFileOf load x c := by
  constructor
  · intro hc
    obtain ⟨⟨x, c⟩, hv, rfl⟩ := List.mem_map.1 hc
    refine ⟨x, ?_, isFileOf_of_look (h.progress.looks (x, c) hv)⟩
    rw [← h.progress.classifies.mem_order, ← h.visited_eq]
    exact List.mem_map.2 ⟨(x, c), hv, rfl⟩
  · rintro ⟨x, hx, hfile⟩
    obtain ⟨d, hd, hlook⟩ := h.look_of_mem hx
    rw [hfile.unique (isFileOf_of_look hlook)]
    exact List.mem_map.2 ⟨(x, d), hd, rfl⟩

/-- The class files of the known classes of the tree, in any order, have the profile that the
survey has collected. -/
theorem exists_profile {order : List ClassName}
    (horder : ∀ x, x ∈ order ↔ x ∈ t.frontier.internal) :
    ∃ files p, order.mapM load = .ok files ∧ Profile.ofClassFiles files = .ok p ∧
      t.profile.same p = true := by
  have hfile (x : ClassName) (hx : x ∈ order) : ∃ c, IsFileOf load x c := by
    obtain ⟨c, -, hlook⟩ := h.look_of_mem ((horder x).1 hx)
    exact ⟨c, isFileOf_of_look hlook⟩
  obtain ⟨files, hfiles⟩ : ∃ files, order.mapM load = .ok files := by
    rw [exists_mapM_iff]
    intro x hx
    obtain ⟨c, bytes, hload, -⟩ := hfile x hx
    exact ⟨bytes, hload⟩
  obtain ⟨p, hp⟩ : ∃ p, Profile.ofClassFiles files = .ok p := by
    rw [Profile.exists_ofClassFiles_iff]
    intro bytes hbytes
    obtain ⟨x, hx, hload⟩ := (mem_of_mapM hfiles bytes).1 hbytes
    obtain ⟨c, found, hfound, hdecode⟩ := hfile x hx
    rw [hload, Except.ok.injEq] at hfound
    exact ⟨c, ClassFile.decode_none_of_decode (hfound ▸ hdecode)⟩
  obtain ⟨found, hfound, hholds⟩ := Profile.holds_of_ofClassFiles hp
  refine ⟨files, p, hfiles, hp, h.progress.profile.same hholds fun c => ?_⟩
  rw [h.mem_visited_iff, mem_of_mapM hfound]
  constructor
  · rintro ⟨x, hx, bytes, hload, hdecode⟩
    exact ⟨bytes, (mem_of_mapM hfiles bytes).2 ⟨x, (horder x).2 hx, hload⟩,
      ClassFile.decode_none_of_decode hdecode⟩
  · rintro ⟨bytes, hbytes, hdecode⟩
    obtain ⟨x, hx, hload⟩ := (mem_of_mapM hfiles bytes).1 hbytes
    obtain ⟨d, again, hagain, hd⟩ := hfile x hx
    rw [hload, Except.ok.injEq] at hagain
    have hnone := ClassFile.decode_none_of_decode (hagain ▸ hd)
    rw [hdecode, Except.ok.injEq] at hnone
    exact ⟨x, (horder x).1 hx, bytes, hload, hnone ▸ hagain ▸ hd⟩

end Complete

/-- A row of class files has a profile when all of them can be decoded. Only the set of the
files matters to it, it is made up of the profiles of the single files, and its public side
lies in its package side. A survey that finishes has the profile of the class files of the
classes of the tree that it knows. -/
theorem ofClassFiles_agrees :
    (∀ files : List (List UInt8),
      ((∃ p, Profile.ofClassFiles files = .ok p) ↔
        ∀ bytes ∈ files, ∃ c, ClassFile.decode none bytes = .ok c) ∧
      ∀ p, Profile.ofClassFiles files = .ok p →
        (∀ others : List (List UInt8), (∀ bytes, bytes ∈ others ↔ bytes ∈ files) →
          ∃ q, Profile.ofClassFiles others = .ok q ∧ q.same p = true) ∧
        (∃ singles, files.mapM (fun bytes => Profile.ofClassFiles [bytes]) = .ok singles ∧
          (singles.foldl Profile.union {}).same p = true) ∧
        ∀ line ∈ p.publicLines, line ∈ p.packageLines) ∧
    ∀ (load : ClassName → Except Error (List UInt8)) (probe : Probe) (followsMembers : Bool)
      (roots : List ClassId) (t : Survey),
      Finishes load (fresh probe followsMembers roots) t →
        ∀ order : List ClassName, (∀ x, x ∈ order ↔ x ∈ t.frontier.internal) →
          ∃ files p, order.mapM load = .ok files ∧ Profile.ofClassFiles files = .ok p ∧
            t.profile.same p = true := by
  constructor
  · intro files
    constructor
    · exact Profile.exists_ofClassFiles_iff
    · intro p hp
      obtain ⟨found, -, hholds⟩ := Profile.holds_of_ofClassFiles hp
      exact ⟨fun others h => Profile.exists_same_of_mem_iff hp h, Profile.exists_singles hp,
        fun line hline => hholds.mem_packageLines hline⟩
  · intro load probe followsMembers roots t ht order horder
    obtain ⟨visited, hcomplete⟩ := finishes_fresh_iff.1 ht
    exact hcomplete.exists_profile horder

set_option maxRecDepth 4000 in
/-- The one class file that a survey has looked at, alone and twice in a row. -/
theorem ofClassFiles_agrees_child :
    ∃ p q, Profile.ofClassFiles [childFile] = .ok p ∧ childRun.1.2.profile.same p = true ∧
      Profile.ofClassFiles [childFile, childFile] = .ok q ∧ q.same p = true := by
  have hends : (childRun.1.1, childRun.2) = (.finished, [.ofText "p/A"]) := by
    decide +kernel
  obtain ⟨hfinished, hcalls⟩ := Prod.mk.inj hends
  have hrun : childRun = ((.finished, childRun.1.2), [.ofText "p/A"]) :=
    Prod.ext (Prod.ext hfinished rfl) hcalls
  obtain ⟨visited, hcomplete, hasked⟩ := complete_of_run_traced hrun
  have horder (x : ClassName) : x ∈ [ClassName.ofText "p/A"] ↔
      x ∈ childRun.1.2.frontier.internal := by
    rw [hasked, hcomplete.visited_eq, hcomplete.progress.classifies.mem_order]
  obtain ⟨files, p, hfiles, hp, hsame⟩ := ofClassFiles_agrees.2 _ _ _ _ _
    (finishes_fresh_iff.2 ⟨visited, hcomplete⟩) _ horder
  obtain rfl : [childFile] = files := Except.ok.inj hfiles
  obtain ⟨q, hq, hqp⟩ := ((ofClassFiles_agrees.1 _).2 p hp).1 [childFile, childFile] (by simp)
  exact ⟨p, q, hp, hsame, hq, hqp⟩

end Survey

end ClassAtlas
