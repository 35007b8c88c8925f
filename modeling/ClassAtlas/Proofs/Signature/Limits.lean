import ClassAtlas.Proofs.Signature.Turns

/-!
# What reading a signature can use up

Each invariant here is kept by every move. The scanner stays on the text and never goes back. A
step is counted only for a byte that has been passed over before: the tasks ahead owe bytes for
the steps that they may count before they pass over something. The open levels are those that the
tasks ahead leave again, and between two levels there is room for a few tasks only.
-/

namespace ClassAtlas.Signature

open Scan

variable {m m' : Moment} {task : Task} {below : List Task} {answer : Bool} {move : Move}

/-! ### All moments -/

/-- A turn is over the tasks below unless it fails, and then over none. -/
theorem Turn.stop?_eq_none_or_tasks_eq_nil (h : Turn m task below m') :
    m'.stop? = none ∨ m'.tasks = [] := by
  cases h with
  | goes => exact .inl rfl
  | exceeds => exact .inr rfl
  | stuck => exact .inr rfl

theorem momentAfter_succ (steps : Nat) (kind : SignatureKind) (text : String) :
    momentAfter (steps + 1) kind text = step (momentAfter steps kind text) :=
  Function.iterate_succ_apply' step steps _

theorem stop?_eq_none_or_tasks_eq_nil (steps : Nat) (kind : SignatureKind) (text : String) :
    (momentAfter steps kind text).stop? = none ∨ (momentAfter steps kind text).tasks = [] := by
  induction steps with
  | zero => exact .inl rfl
  | succ steps ih =>
    rw [momentAfter_succ]
    cases htasks : (momentAfter steps kind text).tasks with
    | nil => exact .inr (by rw [step_of_tasks_eq_nil htasks, htasks])
    | cons task below =>
      have hrun := ih.resolve_right (by rw [htasks]; exact List.cons_ne_nil _ _)
      exact (turn_step htasks hrun).stop?_eq_none_or_tasks_eq_nil

/-- What one moment and the next are to each other, if every turn makes them so. -/
theorem momentAfter_next {R : Moment → Moment → Prop} (hrefl : ∀ m, R m m)
    (hturn : ∀ m task below m', m.stop? = none → m.tasks = task :: below →
      Turn m task below m' → R m m')
    (steps : Nat) (kind : SignatureKind) (text : String) :
    R (momentAfter steps kind text) (momentAfter (steps + 1) kind text) := by
  rw [momentAfter_succ]
  cases htasks : (momentAfter steps kind text).tasks with
  | nil =>
    rw [step_of_tasks_eq_nil htasks]
    exact hrefl _
  | cons task below =>
    have hrun := (stop?_eq_none_or_tasks_eq_nil steps kind text).resolve_right
      (by rw [htasks]; exact List.cons_ne_nil _ _)
    exact hturn _ task below _ hrun htasks (turn_step htasks hrun)

/-- What holds at the start and is kept by every turn holds of all moments. -/
theorem momentAfter_induction {P : Moment → Prop} {kind : SignatureKind} {text : String}
    (hstart : P (start kind text))
    (hturn : ∀ m task below m', m.stop? = none → m.tasks = task :: below →
      Turn m task below m' → P m → P m') (steps : Nat) :
    P (momentAfter steps kind text) := by
  induction steps with
  | zero => exact hstart
  | succ steps ih =>
    exact momentAfter_next (R := fun m m' => P m → P m') (fun _ => id) hturn steps kind text ih

/-! ### The position -/

theorem Passes.weaken {least ticks : Nat} {s t : Scanner} (h : Passes least ticks s t) :
    Passes 0 ticks s t where
  exists_passed := by
    obtain ⟨passed, hrest, hposition, -⟩ := h.exists_passed
    exact ⟨passed, hrest, hposition, Nat.zero_le _⟩
  steps_eq := h.steps_eq

theorem Passes.trans {ticks more : Nat} {s t u : Scanner} (h : Passes 0 ticks s t)
    (h' : Passes 0 more t u) : Passes 0 (ticks + more) s u where
  exists_passed := by
    obtain ⟨passed, hrest, hposition, -⟩ := h.exists_passed
    obtain ⟨later, hrest', hposition', -⟩ := h'.exists_passed
    refine ⟨passed ++ later, ?_, ?_, Nat.zero_le _⟩
    · rw [hrest, hrest', List.append_assoc]
    · rw [hposition', hposition, bytes_append, Nat.add_assoc]
  steps_eq := by
    rw [h'.steps_eq, h.steps_eq, Nat.add_assoc]

theorem Passes.rest_suffix {least ticks : Nat} {s t : Scanner} (h : Passes least ticks s t) :
    t.rest <:+ s.rest := by
  obtain ⟨passed, hrest, -, -⟩ := h.exists_passed
  exact ⟨passed, hrest.symm⟩

theorem Passes.position_le {least ticks : Nat} {s t : Scanner} (h : Passes least ticks s t) :
    s.position ≤ t.position := by
  obtain ⟨passed, -, hposition, -⟩ := h.exists_passed
  omega

/-- A turn passes over what its move does, or over nothing. -/
theorem Turn.exists_passes (h : Turn m task below m') :
    ∃ ticks, Passes 0 ticks m.toScanner m'.toScanner := by
  cases h with
  | goes _ hpasses => exact ⟨_, hpasses.weaken⟩
  | exceeds _ hpasses => exact ⟨_, hpasses.weaken⟩
  | stuck => exact ⟨0, Passes.refl _⟩

theorem exists_passes_succ (steps : Nat) (kind : SignatureKind) (text : String) :
    ∃ ticks, Passes 0 ticks (momentAfter steps kind text).toScanner
      (momentAfter (steps + 1) kind text).toScanner :=
  momentAfter_next (R := fun m m' => ∃ ticks, Passes 0 ticks m.toScanner m'.toScanner)
    (fun _ => ⟨0, Passes.refl _⟩) (fun _ _ _ _ _ _ => Turn.exists_passes) steps kind text

/-- Since the start, the scanner has passed over all that is no longer ahead. -/
theorem exists_passes_start (steps : Nat) (kind : SignatureKind) (text : String) :
    ∃ ticks, Passes 0 ticks { rest := text.toList } (momentAfter steps kind text).toScanner := by
  induction steps with
  | zero => exact ⟨0, Passes.refl _⟩
  | succ steps ih =>
    obtain ⟨ticks, hpasses⟩ := ih
    obtain ⟨more, hpasses'⟩ := exists_passes_succ steps kind text
    exact ⟨ticks + more, hpasses.trans hpasses'⟩

/-! ### The steps -/

/-- The steps that the tasks may count before they have passed over as many bytes, by the answer
that was given last. A production that finds something has passed over a byte, which the step
behind it takes up; a task that expects a character has passed over one in any case. -/
def owed : Bool → List Task → Nat
  | _, [] => 0
  | answer, .expect _ :: below => owed answer below - 1
  | answer, .tick :: below => owed answer below + 1
  | _, .answer found :: below => owed found below
  | _, .find _ :: below => max (owed false below) (owed true below - 1)
  | answer, .orElse _ :: below =>
    if answer then owed true below else max (owed false below) (owed true below - 1)
  | answer, .whileFound _ :: below => answer.toNat + owed false below
  -- The step of a simple class is for the letter in front of it or the dot.
  | _, .packages :: below => (max (owed false below) (owed true below) - 1) + 1
  | _, .simpleClass _ :: below => (max (owed false below) (owed true below) - 1) + 1
  | _, .name _ :: below => max (owed false below) (owed true below) - 1
  | _, .suffix _ :: below => max (owed false below) (owed true below) - 1
  | _, .typeArguments :: below => max (owed false below) (owed true below)
  | _, .typeParameters :: below => max (owed false below) (owed true below)
  | _, .returnType :: below => max (owed false below) (owed true below)
  | answer, .finish :: below => owed answer below
  | answer, .leave :: below => owed answer below

/-- A move pays for the steps that it counts or leaves to the tasks that it makes. -/
theorem Allows.owed_le (h : Allows task answer move) (below : List Task) :
    owed move.answer (move.pushed ++ below) + move.ticks ≤
      owed answer (task :: below) + move.least := by
  cases h <;> cases answer <;>
    simp only [owed, List.cons_append, List.nil_append, Bool.toNat_true, Bool.toNat_false,
      if_true, Bool.false_eq_true, if_false] <;> grind

/-- A moment has counted no more steps than it has passed over bytes, those included that the
tasks ahead may still count at once. -/
def Solvent (m : Moment) : Prop :=
  m.steps + owed m.answer m.tasks ≤ m.position

theorem Solvent.steps_le (h : Solvent m) : m.steps ≤ m.position :=
  (Nat.le_add_right _ _).trans h

theorem Solvent.failing {stop : Stop} (h : Solvent m) : Solvent (m.failing stop) :=
  h.steps_le

theorem Solvent.behind {s : Scanner} (h : Solvent m) (htasks : m.tasks = task :: below)
    (hallows : Allows task m.answer move) (hpasses : Passes move.least move.ticks m.toScanner s) :
    Solvent (m.behind move s below) := by
  have howed := hallows.owed_le below
  obtain ⟨passed, -, hposition, hleast⟩ := hpasses.exists_passed
  have hsteps := hpasses.steps_eq
  unfold Solvent at h ⊢
  rw [htasks] at h
  simp only [Moment.behind]
  omega

theorem Solvent.turn (h : Solvent m) (htasks : m.tasks = task :: below)
    (hturn : Turn m task below m') : Solvent m' := by
  cases hturn with
  | goes hallows hpasses => exact h.behind htasks hallows hpasses
  | exceeds hallows hpasses => exact (h.behind htasks hallows hpasses).failing
  | stuck => exact h.failing

theorem owed_tasksOf (kind : SignatureKind) : owed false (tasksOf kind) = 0 := by
  cases kind <;> rfl

theorem solvent_momentAfter (steps : Nat) (kind : SignatureKind) (text : String) :
    Solvent (momentAfter steps kind text) := by
  refine momentAfter_induction ?_ (fun _ _ _ _ _ htasks hturn h => h.turn htasks hturn) steps
  exact Nat.le_of_eq ((Nat.zero_add _).trans (owed_tasksOf kind))

/-! ### The levels -/

theorem Allows.count_leave (h : Allows task answer move) (below : List Task) :
    ((move.pushed ++ below).count .leave : Int) = (task :: below).count .leave + move.levels := by
  cases h with
  | leave =>
    rw [List.nil_append, List.count_cons_self]
    dsimp only
    omega
  | _ => simp

theorem Allows.levels_le (h : Allows task answer move) : move.levels ≤ 1 := by
  cases h <;> simp

/-- The open levels are counted, and there is one too many at most, after a failure. -/
structure Levelled (m : Moment) : Prop where
  depth_eq (hrun : m.stop? = none) : m.depth = m.tasks.count .leave
  depth_le (hrun : m.stop? = none) : m.depth ≤ maxLevels
  depth_nonneg : 0 ≤ m.depth
  depth_le_succ : m.depth ≤ maxLevels + 1

theorem Levelled.turn (h : Levelled m) (hrun : m.stop? = none) (htasks : m.tasks = task :: below)
    (hturn : Turn m task below m') : Levelled m' := by
  have hdepth := h.depth_eq hrun
  have hle := h.depth_le hrun
  rw [htasks] at hdepth
  cases hturn with
  | @goes move s hallows hpasses hsteps hlimit =>
    have hcount := hallows.count_leave below
    have hopen : (m.behind move s below).depth = (m.behind move s below).tasks.count .leave := by
      simp only [Moment.behind]
      omega
    exact {
      depth_eq _ := hopen
      depth_le _ := hlimit hle
      depth_nonneg := hopen ▸ Int.natCast_nonneg _
      depth_le_succ := Int.le_trans (hlimit hle) (Int.le_add_one (Int.le_refl _)) }
  | @exceeds move s stop hallows =>
    have hcount := hallows.count_leave below
    have hlevels := hallows.levels_le
    exact {
      depth_eq := fun h => by cases h
      depth_le := fun h => by cases h
      depth_nonneg := by simp only [Moment.failing, Moment.behind]; omega
      depth_le_succ := by simp only [Moment.failing, Moment.behind]; omega }
  | stuck =>
    exact {
      depth_eq := fun h => by cases h
      depth_le := fun h => by cases h
      depth_nonneg := h.depth_nonneg
      depth_le_succ := h.depth_le_succ }

theorem levelled_momentAfter (steps : Nat) (kind : SignatureKind) (text : String) :
    Levelled (momentAfter steps kind text) := by
  refine momentAfter_induction ?_
    (fun _ _ _ _ hrun htasks hturn h => h.turn hrun htasks hturn) steps
  exact {
    depth_eq _ := by cases kind <;> rfl
    depth_le _ := Int.natCast_nonneg maxLevels
    depth_nonneg := Int.le_refl 0
    depth_le_succ := Int.natCast_nonneg (maxLevels + 1) }

/-! ### The tasks -/

def Production.height : Production → Nat
  | .typeVariable | .arrayType => 2
  | .classType => 3
  | .thrown => 4
  | .type | .fieldType => 5
  | .typeArgument | .bound => 6
  | .typeParameter => 8

/-- The tasks that a task has ahead of it until it is done or enters a level, itself included. -/
def Task.height : Task → Nat
  | .find production | .orElse production => production.height
  | .whileFound production => production.height + 1
  | .packages | .simpleClass _ | .name _ | .suffix _ => 2
  | .typeParameters => 10
  | .returnType => 5
  | .expect _ | .tick | .finish | .leave | .answer _ | .typeArguments => 1

/-- Wherever a task is on the way, there is room for it above the open levels. -/
def Stacked : List Task → Prop
  | [] => True
  | task :: below =>
    below.length + task.height ≤ 18 + 8 * below.count .leave ∧ Stacked below

theorem Production.two_le_height (p : Production) : 2 ≤ p.height := by
  cases p <;> decide

theorem Task.one_le_height (task : Task) : 1 ≤ task.height := by
  cases task with
  | find p | orElse p => exact Nat.le_of_succ_le p.two_le_height
  | whileFound p => exact Nat.le_add_left 1 _
  | _ => simp [Task.height]

theorem Allows.stacked (h : Allows task answer move) (hstacked : Stacked (task :: below)) :
    Stacked (move.pushed ++ below) := by
  obtain ⟨htask, hbelow⟩ := hstacked
  cases h with
  -- The step is counted before the production is called, in the room that this will need.
  | whileFound p =>
    have hheight := p.two_le_height
    simp_all [Stacked, Task.height]
    omega
  | _ => simp_all [Stacked, Task.height, Production.height] <;> omega

theorem Turn.stacked (h : Stacked m.tasks) (htasks : m.tasks = task :: below)
    (hturn : Turn m task below m') : Stacked m'.tasks := by
  rw [htasks] at h
  cases hturn with
  | goes hallows => exact hallows.stacked h
  | exceeds => trivial
  | stuck => trivial

theorem stacked_momentAfter (steps : Nat) (kind : SignatureKind) (text : String) :
    Stacked (momentAfter steps kind text).tasks := by
  refine momentAfter_induction ?_
    (fun _ _ _ _ _ htasks hturn h => hturn.stacked h htasks) steps
  cases kind <;> simp [start, tasksOf, Stacked, Task.height, Production.height]

theorem Stacked.length_le {tasks : List Task} (h : Stacked tasks) :
    tasks.length ≤ 18 + 8 * tasks.count .leave := by
  cases tasks with
  | nil => exact Nat.zero_le _
  | cons task below =>
    have hroom := h.1
    have hheight := task.one_le_height
    have hcount : below.count .leave ≤ (task :: below).count .leave := List.count_le_count_cons
    rw [List.length_cons]
    omega

/-! ### The failure -/

/-- There are steps left, or the moment has failed where it stands. -/
structure Failing (m : Moment) : Prop where
  steps_le (hrun : m.stop? = none) : m.steps ≤ maxSteps
  position_eq {stop : Stop} (hstop : m.stop? = some stop) : stop.position = m.position
  lt_steps {stop : Stop} (hstop : m.stop? = some stop)
    (hfault : stop.fault = .tooManyElements) : maxSteps < m.steps

theorem Failing.turn (h : Failing m) (hrun : m.stop? = none)
    (hturn : Turn m task below m') : Failing m' := by
  cases hturn with
  | goes _ _ hsteps =>
    exact {
      steps_le _ := hsteps (h.steps_le hrun)
      position_eq := fun h => by cases h
      lt_steps := fun h => by cases h }
  | exceeds _ _ hposition hfault =>
    exact {
      steps_le := fun h => by cases h
      position_eq := by rintro _ ⟨⟩; exact hposition
      lt_steps := by rintro _ ⟨⟩; exact hfault }
  | stuck hposition hfault =>
    exact {
      steps_le := fun h => by cases h
      position_eq := by rintro _ ⟨⟩; exact hposition
      lt_steps := by rintro _ ⟨⟩ h; exact absurd h hfault }

theorem failing_momentAfter (steps : Nat) (kind : SignatureKind) (text : String) :
    Failing (momentAfter steps kind text) := by
  refine momentAfter_induction ?_ (fun _ _ _ _ hrun _ hturn h => h.turn hrun hturn) steps
  exact {
    steps_le _ := Nat.zero_le _
    position_eq := fun h => by cases h
    lt_steps := fun h => by cases h }

end ClassAtlas.Signature
