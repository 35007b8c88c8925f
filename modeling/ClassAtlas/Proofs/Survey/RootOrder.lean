import Mathlib.Data.List.Perm.Subperm
import ClassAtlas.Report
import ClassAtlas.Proofs.Survey.Closure

/-!
# Surveys from the same roots

Which classes a survey starts from matters only as a set, and without dimensions. Two
surveys that start from the same classes either both finish or neither does, whatever the
order in which they come to the classes; and when they finish they know the same classes
and have collected the same lines. The bound on the visits plays no part: a survey finishes
when it does so with some bound.
-/

namespace ClassAtlas

namespace Survey

variable {load : ClassName → Except Error (List UInt8)} {probe : Probe} {followsMembers : Bool}
  {roots others : List ClassId} {s t u : Survey} {visited more : List (ClassName × ClassFile)}

/-- With a sufficient bound on its visits a run from `s` finishes in `t`. -/
def Finishes (load : ClassName → Except Error (List UInt8)) (s t : Survey) : Prop :=
  ∃ visits, Id.run (run (m := Id) load visits s) = (.finished, t)

theorem run_traced_fst (visits : Nat) (s : Survey) (asked : List ClassName) :
    (run (traced load) visits s asked).1 = Id.run (run (m := Id) load visits s) := by
  induction visits generalizing s asked with
  | zero => rfl
  | succ visits ih =>
    rw [run_traced_succ, run]
    rcases s.frontier.next with ⟨_ | name, frontier⟩
    · rfl
    · dsimp only [Id.run, bind]
      cases load name with
      | error e => rfl
      | ok bytes =>
        dsimp only [EStateM.run]
        cases visit (.ofName name) bytes { s with frontier } with
        | ok _ s => exact ih s _
        | error e s => rfl

theorem finishes_of_visits (hv : Visits load s visited t) (hnext : t.frontier.next.1 = none) :
    Finishes load s t := by
  refine ⟨visited.length + 1, ?_⟩
  rw [← run_traced_fst _ _ []]
  generalize [] = asked
  induction hv generalizing asked with
  | nil s =>
    have hnone : s.frontier.next = (none, s.frontier.next.2) := by rw [← hnext]
    rw [List.length_nil, run_traced_succ, hnone]
  | cons hat hlook hrest ih =>
    rw [List.length_cons, run_traced_of_look_ok hat hlook]
    exact ih hnext _

/-- A survey from the roots finishes when it completes, with any bound. -/
theorem finishes_fresh_iff : Finishes load (fresh probe followsMembers roots) t ↔
    ∃ visited, Complete probe load followsMembers roots t visited := by
  constructor
  · rintro ⟨visits, hrun⟩
    have htraced : (run (traced load) visits (fresh probe followsMembers roots) []).1 =
        (.finished, t) := (run_traced_fst visits _ []).trans hrun
    obtain ⟨visited, hcomplete, -⟩ := complete_of_run_traced (Prod.ext htraced rfl)
    exact ⟨visited, hcomplete⟩
  · rintro ⟨visited, hcomplete⟩
    exact finishes_of_visits hcomplete.visits hcomplete.next_eq

theorem ClosedUnder.congr (h : ∀ x, x ∈ ClassId.names roots ↔ x ∈ ClassId.names others)
    {T : Set ClassName} (hT : ClosedUnder probe load followsMembers roots T) :
    ClosedUnder probe load followsMembers others T where
  root d name hother := by
    have hname := (h name).2 (ClassId.mem_names_iff_object.2 ⟨d, hother⟩)
    obtain ⟨d, hroot⟩ := ClassId.mem_names_iff_object.1 hname
    exact hT.root d name hroot
  poolClass := hT.poolClass
  classSignature := hT.classSignature
  fieldSignature := hT.fieldSignature
  methodSignature := hT.methodSignature

namespace Complete

variable (h : Complete probe load followsMembers roots t visited)
include h

/-- A survey from the same classes comes to no class of the tree that this one did not
come to. -/
theorem internal_of_visits (hsame : ∀ x, x ∈ ClassId.names roots ↔ x ∈ ClassId.names others)
    (hv : Visits load (fresh probe followsMembers others) more u) {x : ClassName}
    (hx : x ∈ u.frontier.internal) : x ∈ t.frontier.internal := by
  have hfresh := progress_fresh probe load followsMembers others
  have hu := hv.progress hfresh
  have hclosed := h.closedUnder.congr hsame
  have hknown : x ∈ t.frontier.internal ∨ x ∈ t.frontier.external :=
    hv.subset hclosed hfresh hclosed.mem_of_fresh x (Or.inl hx)
  rw [h.progress.classifies.mem_internal]
  exact ⟨(h.progress.classifies.known_iff x).1 hknown, ((hu.classifies.mem_internal x).1 hx).2⟩

/-- A survey from the same classes completes, too. It makes as many visits at most, and no
class fails that did not fail before. -/
theorem exists_complete (hsame : ∀ x, x ∈ ClassId.names roots ↔ x ∈ ClassId.names others) :
    ∃ u more, Complete probe load followsMembers others u more := by
  obtain ⟨asked, -, hends⟩ := @run_traced_ends load visited.length
    (fresh probe followsMembers others) []
  generalize (run (traced load) visited.length (fresh probe followsMembers others) []).1 = out
    at hends
  cases hends with
  | @finished more u hv hnext => exact ⟨u, more, hv, hnext⟩
  | @unfinished more u hv hlength hnext =>
    have hu := by simpa using hv.progress (progress_fresh probe load followsMembers others)
    obtain ⟨name, hname⟩ := Option.ne_none_iff_exists'.1 hnext
    obtain ⟨hin, hnew⟩ := Progress.mem_of_next hu hname
    have hnodup : (more.map Prod.fst ++ [name]).Nodup := by
      have hold := hu.taken.sublist.nodup hu.classifies.nodup_order
      refine List.nodup_append.2 ⟨hold, by simp, ?_⟩
      rintro x hx y hy rfl
      exact hnew (List.mem_singleton.1 hy ▸ hx)
    have hsub : more.map Prod.fst ++ [name] ⊆ visited.map Prod.fst := by
      intro x hx
      rw [h.visited_eq, h.progress.classifies.mem_order]
      apply h.internal_of_visits hsame hv
      rcases List.mem_append.1 hx with hx | hx
      · exact (hu.classifies.mem_order x).1 (hu.taken.subset hx)
      · rwa [List.mem_singleton.1 hx]
    have hle := (List.subperm_of_subset hnodup hsub).length_le
    simp only [List.length_append, List.length_map, List.length_singleton] at hle
    omega
  | @failed more u name cause left hv hnext hlook =>
    have hu := by simpa using hv.progress (progress_fresh probe load followsMembers others)
    have hin := h.internal_of_visits hsame hv (Progress.mem_of_next hu hnext).1
    obtain ⟨c, -, hok⟩ := h.look_of_mem hin
    rw [hu.follows, hok] at hlook
    cases hlook

variable (k : Complete probe load followsMembers others u more)
include k

theorem mem_internal_iff (hsame : ∀ x, x ∈ ClassId.names roots ↔ x ∈ ClassId.names others)
    (x : ClassName) : x ∈ t.frontier.internal ↔ x ∈ u.frontier.internal :=
  ⟨k.internal_of_visits (fun y => (hsame y).symm) h.visits, h.internal_of_visits hsame k.visits⟩

theorem mem_external_iff (hsame : ∀ x, x ∈ ClassId.names roots ↔ x ∈ ClassId.names others)
    (x : ClassName) : x ∈ t.frontier.external ↔ x ∈ u.frontier.external := by
  have hin := h.mem_internal_iff k hsame
  have hknown (y : ClassName) : y ∈ t.frontier.internal ∨ y ∈ t.frontier.external ↔
      y ∈ u.frontier.internal ∨ y ∈ u.frontier.external :=
    ⟨h.subset_of_closedUnder (k.closedUnder.congr fun z => (hsame z).symm) y,
      k.subset_of_closedUnder (h.closedUnder.congr hsame) y⟩
  have ht := h.progress.classifies
  have hu := k.progress.classifies
  have := hknown x
  rw [ht.known_iff, hu.known_iff] at this
  rw [ht.mem_external, hu.mem_external, this]

theorem mem_files_iff (hsame : ∀ x, x ∈ ClassId.names roots ↔ x ∈ ClassId.names others)
    (c : ClassFile) (hc : c ∈ visited.map Prod.snd) : c ∈ more.map Prod.snd := by
  obtain ⟨⟨x, c⟩, hv, rfl⟩ := List.mem_map.1 hc
  have hin : x ∈ t.frontier.internal := by
    rw [← h.progress.classifies.mem_order, ← h.visited_eq]
    exact List.mem_map.2 ⟨(x, c), hv, rfl⟩
  obtain ⟨d, hd, hlook⟩ := k.look_of_mem ((h.mem_internal_iff k hsame x).1 hin)
  rw [h.progress.looks (x, c) hv, Except.ok.injEq] at hlook
  exact List.mem_map.2 ⟨(x, d), hd, hlook.symm⟩

end Complete

def findings (t : Survey) : Findings :=
  { profile := t.profile, frontier := t.frontier, analyzed := t.analyzed }

/-- Surveys that start from the same classes finish together, and those that finish know
the same classes, have decoded as many class files, hold the same lines, and write the same
reports. -/
theorem finishes_iff_of_same_roots
    (hsame : ∀ x, (∃ id ∈ roots, id.className? = some x) ↔ ∃ id ∈ others, id.className? = some x) :
    ((∃ t, Finishes load (fresh probe followsMembers roots) t) ↔
      ∃ u, Finishes load (fresh probe followsMembers others) u) ∧
    ∀ t u, Finishes load (fresh probe followsMembers roots) t →
      Finishes load (fresh probe followsMembers others) u →
      t.frontier.internal.toList = u.frontier.internal.toList ∧
      t.frontier.external.toList = u.frontier.external.toList ∧
      t.analyzed = u.analyzed ∧
      t.profile.publicLines.toList = u.profile.publicLines.toList ∧
      t.profile.packageLines.toList = u.profile.packageLines.toList ∧
      ∀ files tree sourceRoots kind,
        t.findings.lines files tree sourceRoots kind =
          u.findings.lines files tree sourceRoots kind := by
  have hnames : ∀ x, x ∈ ClassId.names roots ↔ x ∈ ClassId.names others := by
    simpa only [ClassId.mem_names] using hsame
  simp only [finishes_fresh_iff]
  refine ⟨⟨?_, ?_⟩, ?_⟩
  · rintro ⟨t, visited, h⟩
    exact h.exists_complete hnames
  · rintro ⟨u, visited, h⟩
    exact h.exists_complete fun x => (hnames x).symm
  · rintro t u ⟨visited, h⟩ ⟨more, k⟩
    have hin : t.frontier.internal.toList = u.frontier.internal.toList :=
      (Std.TreeSet.Equiv.of_forall_mem_iff (h.mem_internal_iff k hnames)).toList_eq
    have hex : t.frontier.external.toList = u.frontier.external.toList :=
      (Std.TreeSet.Equiv.of_forall_mem_iff (h.mem_external_iff k hnames)).toList_eq
    have hlines := h.progress.profile.toList_eq k.progress.profile fun c =>
      ⟨h.mem_files_iff k hnames c, k.mem_files_iff h (fun x => (hnames x).symm) c⟩
    refine ⟨hin, hex, ?_, hlines.1, hlines.2, ?_⟩
    · rw [h.analyzed_eq, k.analyzed_eq, ← Std.TreeSet.length_toList, hin,
        Std.TreeSet.length_toList]
    · intro files tree sourceRoots kind
      cases kind <;> simp [Findings.lines, findings, Frontier.classList, Frontier.makeLines,
        Frontier.sourceList, Frontier.foundSources, Frontier.sources, Frontier.imports,
        Frontier.exports, Frontier.packagesOf, hin, hex, hlines.1, hlines.2]

/-- The roots may repeat a class, and name an array of it. -/
theorem finishes_iff_of_same_roots_array :
    (∃ t, Finishes (fun _ => .ok childFile) (fresh (.ofIds [.ofName (.ofText "p/A")]) true
        [.object 2 (.ofText "p/A"), .ofName (.ofText "q/C"), .ofName (.ofText "p/A")]) t) ↔
      ∃ u, Finishes (fun _ => .ok childFile) (fresh (.ofIds [.ofName (.ofText "p/A")]) true
        [.ofName (.ofText "p/A"), .ofName (.ofText "q/C")]) u :=
  (finishes_iff_of_same_roots fun x => by
    simp [ClassId.className?, or_comm]).1

end Survey

end ClassAtlas
