import Mathlib.Data.List.Nodup
import Mathlib.Data.List.Perm.Subperm
import ClassAtlas.Proofs.Frontier.Histories
import ClassAtlas.Proofs.Survey.Failures

/-!
# Sessions

Any row of calls on a new survey: ids are submitted, and runs are made, each with a loader
that may fail, answer with any bytes, and remember what it has done. `Balanced` ties what was
loaded to the frontier and to the counts; a submission preserves it, and so does a class that
is taken in and each way in which a run stops. In a tree with finitely many classes it bounds
all runs together, so that no run needs more visits than there are classes.
-/

namespace ClassAtlas

/-- What is done with a survey. The loaders work on a world of their own. -/
inductive SurveyCall (σ : Type) where
  | submit (id : ClassId)
  | run (load : ClassName → StateM σ (Except Error (List UInt8))) (visits : Nat)

/-- A survey in use, with what its loaders were asked for, in order, and how many of its runs
have failed. -/
structure Session (σ : Type) where
  survey : Survey
  world : σ
  asked : List ClassName := []
  failures : Nat := 0

/-- How many ids a list has, told apart by the way they are written. -/
def ClassId.countDistinct (ids : List ClassId) : Nat :=
  (ids.map text).eraseDups.length

namespace Frontier

variable {f : Frontier}

theorem Accounts.length_taken {probe : Probe} {submitted : List ClassId} {taken : List ClassName}
    (h : f.Accounts probe submitted taken) : taken.length = f.taken := by
  rw [h.taken_eq, List.length_take, Array.length_toList]
  exact Nat.min_eq_left h.taken_le

theorem mem_texts_of_accepts {known : List ClassId} {name : ClassName}
    (h : (Probe.ofIds known).accepts name = true) : name.text ∈ known.map ClassId.text := by
  have hknown : (Std.TreeSet.ofList (known.map ClassId.text)).contains name.text = true := h
  rw [Std.TreeSet.contains_ofList] at hknown
  exact List.contains_iff_mem.1 hknown

/-- There are no more internal classes than ids that the probe was made of. -/
theorem Classifies.size_order_le {known : List ClassId} {met : List ClassName}
    (h : f.Classifies (.ofIds known) met) : f.order.size ≤ ClassId.countDistinct known := by
  have hnodup : (f.order.toList.map ClassName.text).Nodup :=
    h.nodup_order.map fun _ _ => ClassName.ext_text
  have hsub : f.order.toList.map ClassName.text ⊆ (known.map ClassId.text).eraseDups := by
    intro text htext
    obtain ⟨name, hname, rfl⟩ := List.mem_map.1 htext
    have haccepted := ((h.mem_internal name).1 ((h.mem_order name).1 hname)).2
    exact List.mem_eraseDups.2 (mem_texts_of_accepts haccepted)
  have hle := (List.subperm_of_subset hnodup hsub).length_le
  rwa [List.length_map, Array.length_toList] at hle

end Frontier

/-- How often a run has failed. -/
def Run.failures : Run → Nat
  | failed _ => 1
  | finished | unfinished => 0

namespace Survey

variable {σ : Type} {load : ClassName → StateM σ (Except Error (List UInt8))} {probe : Probe}
  {s t : Survey} {w v : σ} {visited : List (ClassName × ClassFile)} {asked : List ClassName}
  {failures : Nat}

/-- A loader that also writes down what it is asked for, whatever state it works on. -/
def noted (load : ClassName → StateM σ (Except Error (List UInt8))) (name : ClassName) :
    StateM (σ × List ClassName) (Except Error (List UInt8)) := fun (w, asked) =>
  let (answer, w) := load name w
  (answer, w, asked ++ [name])

theorem asked_of_noted {name : ClassName} {w x : σ × List ClassName}
    {answer : Except Error (List UInt8)} (h : noted load name w = (answer, x)) :
    x.2 = w.2 ++ [name] :=
  (congrArg (fun answered => answered.2.2) h).symm

theorem Passes.asked_eq {w v : σ × List ClassName} (h : Passes (noted load) s w visited t v) :
    v.2 = w.2 ++ visited.map Prod.fst := by
  induction h with
  | nil s w => simp
  | @cons s u t w x v name frontier bytes c visited hnext hload hdecode hvisit hrest ih =>
    rw [ih, asked_of_noted hload, List.append_assoc]
    rfl

/-- Every class that was asked for has been taken from the frontier, and either counts as
analysed or made a run fail. -/
structure Balanced (probe : Probe) (s : Survey) (asked : List ClassName) (failures : Nat) :
    Prop where
  accounts : ∃ submitted, s.frontier.Accounts probe submitted asked
  counted : asked.length = s.analyzed + failures

theorem balanced_start (probe : Probe) (followsMembers : Bool) :
    Balanced probe (start probe followsMembers) [] 0 where
  accounts := ⟨[], Frontier.accounts_empty probe⟩
  counted := rfl

namespace Balanced

variable (h : Balanced probe s asked failures)
include h

theorem submit (id : ClassId) : Balanced probe (s.submit id) asked failures where
  accounts := by
    obtain ⟨submitted, haccounts⟩ := h.accounts
    exact ⟨submitted ++ [id], haccounts.submitAll [id]⟩
  counted := h.counted

/-- The class that is next has not been asked for, but belongs to the ones asked for as soon
as it is taken. -/
theorem next {name : ClassName} {frontier : Frontier}
    (hnext : s.frontier.next = (some name, frontier)) :
    ∃ submitted, frontier.Accounts probe submitted (asked ++ [name]) := by
  obtain ⟨submitted, haccounts⟩ := h.accounts
  have htaken := haccounts.next
  rw [hnext] at htaken
  exact ⟨submitted, htaken⟩

theorem looked {name : ClassName} {frontier : Frontier}
    (hnext : s.frontier.next = (some name, frontier)) (c : ClassFile) :
    Balanced probe ({ s with frontier }.looked c) (asked ++ [name]) failures where
  accounts := by
    obtain ⟨submitted, haccounts⟩ := h.next hnext
    exact ⟨_, haccounts.submitAll _⟩
  counted := by
    have := h.counted
    simp only [Survey.looked, List.length_append, List.length_singleton]
    omega

theorem unloaded {name : ClassName} {frontier : Frontier}
    (hnext : s.frontier.next = (some name, frontier)) :
    Balanced probe { s with frontier } (asked ++ [name]) (failures + 1) where
  accounts := h.next hnext
  counted := by
    have := h.counted
    simp only [List.length_append, List.length_singleton]
    omega

/-- A class that cannot be taken in makes a run fail, and leaves what it has named. -/
theorem broken {name : ClassName} {frontier : Frontier} {bytes : List UInt8} {e : Error}
    (hnext : s.frontier.next = (some name, frontier))
    (hvisit : visit (.ofName name) bytes { s with frontier } = .error e t) :
    Balanced probe t (asked ++ [name]) (failures + 1) := by
  have htaken := h.unloaded hnext
  obtain ⟨-, rfl⟩ | ⟨c, -, -, rfl⟩ := visit_eq_error hvisit
  · exact htaken
  · obtain ⟨submitted, haccounts⟩ := htaken.accounts
    exact ⟨⟨_, haccounts.submitAll _⟩, htaken.counted⟩

end Balanced

theorem Passes.balanced (hp : Passes load s w visited t v)
    (h : Balanced probe s asked failures) :
    Balanced probe t (asked ++ visited.map Prod.fst) failures := by
  induction hp generalizing asked with
  | nil s w => simpa using h
  | cons hnext hload hdecode hvisit hrest ih =>
    obtain ⟨c, -, rfl⟩ := visit_eq_ok hvisit
    simpa using ih (h.looked hnext c)

/-- What a run preserves, however it stops. -/
theorem Stops.balanced {w : σ × List ClassName} {visits : Nat}
    {out : (Run × Survey) × σ × List ClassName} (hs : Stops (noted load) visits s w out)
    (h : Balanced probe s w.2 failures) :
    Balanced probe out.1.2 out.2.2 (failures + out.1.1.failures) := by
  cases hs with
  | finished hpasses hnext =>
    rw [hpasses.asked_eq]
    exact hpasses.balanced h
  | unfinished hpasses hlength hnext =>
    rw [hpasses.asked_eq]
    exact hpasses.balanced h
  | @unloaded visited t v x name frontier cause hpasses hnext hload =>
    rw [asked_of_noted hload, hpasses.asked_eq]
    exact (hpasses.balanced h).unloaded hnext
  | @broken visited t u v x name frontier bytes cause hpasses hnext hload hvisit =>
    rw [asked_of_noted hload, hpasses.asked_eq]
    exact (hpasses.balanced h).broken hnext hvisit

theorem run_of_next_eq_none (visits : Nat) (h : s.frontier.next.1 = none) :
    run load visits s w = ((.finished, s), w) := by
  cases visits with
  | zero =>
    have hdone : s.frontier.hasNext = false := by rw [hasNext_eq, h]; rfl
    change ((if s.frontier.hasNext then Run.unfinished else .finished, s), w) = _
    rw [hdone]
    rfl
  | succ visits =>
    have hpair : s.frontier.next = (none, s.frontier.next.2) := by rw [← h]
    rw [run_succ, hpair]

theorem run_add_of_ne_unfinished {visits : Nat} (more : Nat)
    (h : (run load visits s w).1.1 ≠ .unfinished) :
    run load (visits + more) s w = run load visits s w := by
  induction visits generalizing s w with
  | zero =>
    have hnone : s.frontier.next.1 = none := by
      by_contra hnext
      have hmore : s.frontier.hasNext = true := by
        rw [hasNext_eq]
        exact Option.isSome_iff_ne_none.2 hnext
      exact h (if_pos hmore)
    rw [run_of_next_eq_none _ hnone, run_of_next_eq_none _ hnone]
  | succ visits ih =>
    rw [run_succ] at h
    rw [Nat.add_right_comm, run_succ, run_succ]
    rcases hnext : s.frontier.next with ⟨_ | name, frontier⟩
    · rfl
    · rw [hnext] at h
      dsimp only at h ⊢
      rcases hload : load name w with ⟨_ | bytes, x⟩
      · rfl
      · rw [hload] at h
        dsimp only at h ⊢
        cases hvisit : visit (.ofName name) bytes { s with frontier } with
        | error e u => rfl
        | ok _ u =>
          rw [hvisit] at h
          exact ih h

namespace Balanced

/-- Each internal class has been analysed, made a run fail, or waits. -/
theorem size_internal (h : Balanced probe s asked failures) :
    s.frontier.internal.size = s.analyzed + s.frontier.outstandingCount + failures := by
  obtain ⟨submitted, haccounts⟩ := h.accounts
  have hsize := haccounts.classifies.size_internal
  have htaken := haccounts.length_taken
  have hle := haccounts.taken_le
  have hcounted := h.counted
  unfold Frontier.outstandingCount
  omega

theorem nodup_asked (h : Balanced probe s asked failures) : asked.Nodup := by
  obtain ⟨submitted, haccounts⟩ := h.accounts
  have hnodup := haccounts.classifies.nodup_order
  rw [← haccounts.taken_append_outstanding] at hnodup
  exact (List.nodup_append.1 hnodup).1

variable {known : List ClassId}

theorem length_asked_le (h : Balanced (.ofIds known) s asked failures) :
    asked.length ≤ ClassId.countDistinct known := by
  obtain ⟨submitted, haccounts⟩ := h.accounts
  have hsize := haccounts.classifies.size_order_le
  have htaken := haccounts.length_taken
  have hle := haccounts.taken_le
  omega

theorem length_asked_lt (h : Balanced (.ofIds known) s asked failures)
    (hnext : s.frontier.next.1 ≠ none) : asked.length < ClassId.countDistinct known := by
  obtain ⟨submitted, haccounts⟩ := h.accounts
  have hsize := haccounts.classifies.size_order_le
  have htaken := haccounts.length_taken
  rw [Ne, Frontier.next_fst_eq_none_iff] at hnext
  omega

/-- In a tree with finitely many classes no run meets a bound as great as their number. -/
theorem run_ne_unfinished (h : Balanced (.ofIds known) s asked failures) (more : Nat) :
    (run load (ClassId.countDistinct known + more) s w).1.1 ≠ .unfinished := by
  intro hunfinished
  have hstops := run_stops load (ClassId.countDistinct known + more) s w
  generalize run load (ClassId.countDistinct known + more) s w = out at hstops hunfinished
  cases hstops with
  | finished | unloaded | broken => cases hunfinished
  | unfinished hpasses hlength hnext =>
    have hlt := (hpasses.balanced h).length_asked_lt hnext
    simp only [List.length_append, List.length_map] at hlt
    omega

end Balanced

end Survey

namespace Session

variable {σ : Type}

def start (probe : Probe) (followsMembers : Bool) (world : σ) : Session σ where
  survey := .start probe followsMembers
  world := world

/-- What a call does. Runs note what their loaders are asked for, and whether they fail. -/
def perform (s : Session σ) : SurveyCall σ → Session σ
  | .submit id => { s with survey := s.survey.submit id }
  | .run load visits =>
    let ((ended, survey), world, asked) :=
      (Survey.run (Survey.noted load) visits s.survey).run (s.world, s.asked)
    { survey, world, asked, failures := s.failures + ended.failures }

def performAll (calls : List (SurveyCall σ)) (s : Session σ) : Session σ :=
  calls.foldl perform s

variable {probe : Probe} {s : Session σ}

/-- The survey of a session is balanced by what was asked for and what has failed in it. -/
def IsBalanced (probe : Probe) (s : Session σ) : Prop :=
  Survey.Balanced probe s.survey s.asked s.failures

theorem IsBalanced.perform (h : s.IsBalanced probe) (call : SurveyCall σ) :
    (s.perform call).IsBalanced probe := by
  cases call with
  | submit id => exact Survey.Balanced.submit h id
  | run load visits =>
    exact (Survey.run_stops (Survey.noted load) visits s.survey (s.world, s.asked)).balanced h

/-- What a row of calls preserves. -/
theorem IsBalanced.performAll (h : s.IsBalanced probe) (calls : List (SurveyCall σ)) :
    (performAll calls s).IsBalanced probe := by
  induction calls generalizing s with
  | nil => exact h
  | cons call calls ih => exact ih (h.perform call)

/-- After any row of calls on a survey of a tree that is given by a list of ids, each internal
class has been analysed, waits, or made a run fail. No class was asked for twice, and no more
were asked for than there are ids. A further run, with any loader, ends on its own after at
most as many visits as there are ids, so that a greater bound makes no difference. -/
theorem size_internal_performAll (known : List ClassId) (followsMembers : Bool) (world : σ)
    (calls : List (SurveyCall σ)) :
    let s := performAll calls (start (.ofIds known) followsMembers world)
    s.survey.frontier.internal.size =
        s.survey.analyzed + s.survey.frontier.outstandingCount + s.failures ∧
      s.asked.Nodup ∧ s.asked.length ≤ ClassId.countDistinct known ∧
      ∀ (load : ClassName → StateM σ (Except Error (List UInt8))) (more : Nat),
        let bound := ClassId.countDistinct known
        ((Survey.run load bound s.survey).run s.world).1.1 ≠ .unfinished ∧
        (Survey.run load (bound + more) s.survey).run s.world =
          (Survey.run load bound s.survey).run s.world := by
  intro s
  have hstart : (start (.ofIds known) followsMembers world).IsBalanced (.ofIds known) :=
    Survey.balanced_start _ followsMembers
  have hbalanced : Survey.Balanced (.ofIds known) s.survey s.asked s.failures :=
    hstart.performAll calls
  refine ⟨hbalanced.size_internal, hbalanced.nodup_asked, hbalanced.length_asked_le,
    fun load more => ?_⟩
  have hends : ((Survey.run load (ClassId.countDistinct known) s.survey).run s.world).1.1 ≠
      .unfinished := hbalanced.run_ne_unfinished 0
  exact ⟨hends, Survey.run_add_of_ne_unfinished more hends⟩

end Session

end ClassAtlas
