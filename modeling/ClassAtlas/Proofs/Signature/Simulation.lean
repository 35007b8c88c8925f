import ClassAtlas.Proofs.Signature.Completeness
import ClassAtlas.Proofs.Signature.Limits

/-!
# The tasks do what the productions do

A row of tasks does what a computation does when, whatever tasks are behind it, it leads to
these with the scanner of the computation and with its answer, or to the same failure. For each
production that is shown from what its own calls do; the levels are an induction, and so is a
repetition, whose rounds do not run out because each of them counts a step.
-/

namespace ClassAtlas.Signature

open Scan

variable {α β : Type}

/-! ### Runs -/

/-- The second moment is on the way ahead of the first. -/
def LeadsTo (m m' : Moment) : Prop :=
  ∃ steps, step^[steps] m = m'

theorem LeadsTo.refl (m : Moment) : LeadsTo m m :=
  ⟨0, rfl⟩

theorem LeadsTo.trans {m m' m'' : Moment} (h : LeadsTo m m') (h' : LeadsTo m' m'') :
    LeadsTo m m'' := by
  obtain ⟨steps, rfl⟩ := h
  obtain ⟨more, rfl⟩ := h'
  exact ⟨more + steps, Function.iterate_add_apply step more steps m⟩

theorem LeadsTo.head {m m' : Moment} (h : LeadsTo (step m) m') : LeadsTo m m' :=
  LeadsTo.trans ⟨1, rfl⟩ h

theorem steps_le_steps_step {m : Moment} (hrun : m.stop? = none) : m.steps ≤ (step m).steps := by
  cases htasks : m.tasks with
  | nil => rw [step_of_tasks_eq_nil htasks]
  | cons task below =>
    obtain ⟨ticks, hpasses⟩ := (turn_step htasks hrun).exists_passes
    rw [hpasses.steps_eq]
    exact Nat.le_add_right _ _

/-- A moment leads to the result of a computation: to the tasks `below` on a level, with an
answer that goes with that of the computation, or to a failure. -/
def ComesTo (m : Moment) (depth : Int) (below : List Task) (tells : α → Bool → Prop) :
    EStateM.Result Stop Scanner α → Prop
  | .ok a s => m.steps ≤ s.steps ∧
    ∃ answer, tells a answer ∧ LeadsTo m ⟨s, depth, answer, below, none⟩
  | .error stop s =>
    ∃ m', LeadsTo m m' ∧ m'.toScanner = s ∧ m'.tasks = [] ∧ m'.stop? = some stop

section

variable {m : Moment} {depth : Int} {below : List Task} {tells : α → Bool → Prop}

theorem ComesTo.head {result : EStateM.Result Stop Scanner α} (hrun : m.stop? = none)
    (h : ComesTo (step m) depth below tells result) : ComesTo m depth below tells result := by
  cases result with
  | ok a s =>
    obtain ⟨hsteps, answer, htells, hleads⟩ := h
    exact ⟨(steps_le_steps_step hrun).trans hsteps, answer, htells, hleads.head⟩
  | error stop s =>
    obtain ⟨m', hleads, hend⟩ := h
    exact ⟨m', hleads.head, hend⟩

theorem ComesTo.scan {action : Scan β} {next : β → Moment → Moment} {f : β → Scan α}
    (h : ∀ a s, action m.toScanner = .ok a s →
      ComesTo (next a { m with toScanner := s }) depth below tells (f a s)) :
    ComesTo (m.scan action next) depth below tells ((action >>= f) m.toScanner) := by
  change ComesTo _ depth below tells (EStateM.bind action f m.toScanner)
  unfold Moment.scan EStateM.bind
  cases haction : action m.toScanner with
  | ok a s => exact h a s haction
  | error stop s => exact ⟨_, .refl _, rfl, rfl, rfl⟩

theorem ComesTo.bind {level : Int} {middle : List Task} {tellsThen : β → Bool → Prop}
    {s : Scanner} {p : Scan α} {f : α → Scan β} (hp : ComesTo m level middle tells (p s))
    (hf : ∀ a t found, p s = .ok a t → m.steps ≤ t.steps → tells a found →
      ComesTo ⟨t, level, found, middle, none⟩ depth below tellsThen (f a t)) :
    ComesTo m depth below tellsThen ((p >>= f) s) := by
  change ComesTo m depth below tellsThen (EStateM.bind p f s)
  unfold EStateM.bind
  cases hresult : p s with
  | error stop t =>
    rw [hresult] at hp
    exact hp
  | ok a t =>
    rw [hresult] at hp
    obtain ⟨hsteps, found, htells, hleads⟩ := hp
    have hf := hf a t found hresult hsteps htells
    revert hf
    dsimp only
    cases f a t with
    | ok b u =>
      rintro ⟨hmore, last, hlast, hthen⟩
      exact ⟨hsteps.trans hmore, last, hlast, hleads.trans hthen⟩
    | error stop u =>
      rintro ⟨m', hthen, hend⟩
      exact ⟨m', hleads.trans hthen, hend⟩

end

/-! ### Rows of tasks -/

/-- From `s` on, a row of tasks on a level does what `p` does, whatever is behind it. -/
def Does (s : Scanner) (depth : Int) (answer : Bool) (tasks : List Task) (p : Scan α)
    (tells : α → Bool → Prop) : Prop :=
  ∀ below, ComesTo ⟨s, depth, answer, tasks ++ below, none⟩ depth below tells (p s)

/-- A moment answers what the production before it does. -/
def IsAnswer (found answer : Bool) : Prop :=
  answer = found

def AnyAnswer (_ : Unit) (_ : Bool) : Prop :=
  True

theorem Acts.steps_eq {action : Scan α} {least : α → Nat} {a : α} {s t : Scanner}
    (h : Acts action least s) (hok : action s = .ok a t) : t.steps = s.steps := by
  unfold Acts at h
  rw [hok] at h
  exact h.steps_eq

theorem steps_of_tick {s t : Scanner} {a : Unit} (h : tick s = .ok a t) :
    t.steps = s.steps + 1 ∧ t.steps ≤ maxSteps := by
  rw [tick_eq] at h
  split at h
  · cases h
  · next hle =>
    cases h
    exact ⟨rfl, Nat.not_lt.1 hle⟩

namespace Does

variable {s : Scanner} {depth : Int} {answer : Bool} {task : Task} {tasks more : List Task}
  {p : Scan α} {tells : α → Bool → Prop}

theorem pure {a : α} (h : tells a answer) : Does s depth answer [] (Pure.pure a) tells :=
  fun _ => ⟨Nat.le_refl _, answer, h, .refl _⟩

theorem bind {f : α → Scan β} {tellsThen : β → Bool → Prop}
    (hp : Does s depth answer tasks p tells)
    (hf : ∀ a t found, p s = .ok a t → s.steps ≤ t.steps → tells a found →
      Does t depth found more (f a) tellsThen) :
    Does s depth answer (tasks ++ more) (p >>= f) tellsThen := by
  intro below
  rw [List.append_assoc]
  exact ComesTo.bind (hp (more ++ below))
    fun a t found hresult hsteps htells => hf a t found hresult hsteps htells below

/-- A task does what the tasks do that it makes. -/
theorem push {pushed : List Task} (hperform : ∀ below, task.perform
    ⟨s, depth, answer, below, none⟩ = ⟨s, depth, answer, pushed ++ below, none⟩)
    (h : Does s depth answer pushed p tells) : Does s depth answer [task] p tells := by
  intro below
  refine ComesTo.head rfl ?_
  change ComesTo (task.perform ⟨s, depth, answer, below, none⟩) depth below tells (p s)
  rw [hperform]
  exact h below

theorem skip {a : α} (hperform : ∀ below,
    task.perform ⟨s, depth, answer, below, none⟩ = ⟨s, depth, answer, below, none⟩)
    (h : tells a answer) : Does s depth answer [task] (Pure.pure a) tells := by
  have hdone : Does s depth answer [] (Pure.pure a) tells := pure h
  refine push ?_ hdone
  exact hperform

/-- A task that acts on the scanner does what the action does and then what comes next. -/
theorem scan {action : Scan β} {next : β → Moment → Moment} {f : β → Scan α}
    (hperform : ∀ below, task.perform ⟨s, depth, answer, below, none⟩ =
      Moment.scan ⟨s, depth, answer, below, none⟩ action next)
    (h : ∀ a t, action s = .ok a t → ∀ below,
      ComesTo (next a ⟨t, depth, answer, below, none⟩) depth below tells (f a t)) :
    Does s depth answer [task] (action >>= f) tells := by
  intro below
  refine ComesTo.head rfl ?_
  change ComesTo (task.perform ⟨s, depth, answer, below, none⟩) depth below tells _
  rw [hperform]
  exact ComesTo.scan fun a t haction => h a t haction below

theorem action {action : Scan Unit} (hperform : ∀ below,
    task.perform ⟨s, depth, answer, below, none⟩ =
      Moment.scan ⟨s, depth, answer, below, none⟩ action fun _ m => m) :
    Does s depth answer [task] action AnyAnswer := by
  rw [← bind_pure action]
  exact scan hperform fun _ t _ _ => ⟨Nat.le_refl _, answer, trivial, .refl _⟩

theorem expect (c : Char) : Does s depth answer [.expect c] (Scan.expect c) AnyAnswer :=
  action fun _ => rfl

theorem tick : Does s depth answer [.tick] Scan.tick AnyAnswer :=
  action fun _ => rfl

theorem finish : Does s depth answer [.finish] Scan.finish AnyAnswer :=
  action fun _ => rfl

theorem answering (found : Bool) : Does s depth answer [.answer found] (Pure.pure found) IsAnswer :=
  fun _ => ComesTo.head rfl ⟨Nat.le_refl _, found, rfl, .refl _⟩

/-- A production that has found something, whatever has been found in the end. -/
theorem andAnswer {tells : α → Bool → Prop} (h : Does s depth answer tasks p tells)
    (found : Bool) : Does s depth answer (tasks ++ [.answer found])
      (p >>= fun _ => Pure.pure found) IsAnswer :=
  bind h fun _ _ _ _ _ _ => answering found

/-- A task that comes second does nothing if something has been found. -/
theorem either {second : Scan Bool} {first : Scan Bool} {q : Production}
    (hfirst : Does s depth answer tasks first IsAnswer)
    (hsecond : ∀ t, Does t depth false [.find q] second IsAnswer) :
    Does s depth answer (tasks ++ [.orElse q]) (either first second) IsAnswer := by
  apply bind hfirst
  intro found t answer _ _ hanswer
  cases hanswer
  cases found with
  | true => exact skip (fun _ => rfl) rfl
  | false => exact push (fun _ => rfl) (hsecond t)

/-- On the level above, the tasks of a level are done when it has been left. -/
theorem leave (h : Does s (depth + 1) answer tasks p tells) (below : List Task) :
    ComesTo ⟨s, depth + 1, answer, tasks ++ .leave :: below, none⟩ depth below tells (p s) := by
  rw [← bind_pure p]
  apply ComesTo.bind (h (.leave :: below))
  intro a t found _ _ htells
  refine ComesTo.head rfl ⟨Nat.le_refl _, found, htells, ⟨0, ?_⟩⟩
  change Moment.mk t (depth + 1 - 1) found below none = _
  rw [Int.add_sub_cancel]

end Does

/-- Wherever a production is called on a level, it does what `p` does. -/
def Performs (depth : Int) (production : Production) (p : Scan Bool) : Prop :=
  ∀ s answer, Does s depth answer [.find production] p IsAnswer

/-! ### Repetitions -/

variable {depth : Int}

/-- Each round that has found something counts a step, and so others are left for the next. -/
theorem does_repeatedFor_succ {p : Production} {production : Scan Bool} {rounds : Nat}
    {s : Scanner} {answer : Bool} (h : Performs depth p production)
    (hnext : ∀ t answer, s.steps < t.steps → s.steps < maxSteps →
      Does t depth answer [.find p, .whileFound p] (repeatedFor production rounds) AnyAnswer) :
    Does s depth answer [.find p, .whileFound p] (repeatedFor production (rounds + 1))
      AnyAnswer := by
  apply Does.bind (h s answer)
  intro found t answer _ hsteps hanswer
  cases hanswer
  cases found with
  | false => exact Does.skip (fun _ => rfl) trivial
  | true =>
    have htick : Does t depth true [.tick, .find p, .whileFound p]
        (tick >>= fun _ => repeatedFor production rounds) AnyAnswer := by
      apply Does.bind Does.tick
      intro _ u answer hu _ _
      obtain ⟨hticked, hle⟩ := steps_of_tick hu
      exact hnext u answer (by omega) (by omega)
    exact Does.push (fun _ => rfl) htick

theorem does_repeated {p : Production} {production : Scan Bool}
    (h : Performs depth p production) (s : Scanner) (answer : Bool) :
    Does s depth answer [.find p, .whileFound p] (repeated production) AnyAnswer := by
  have hrounds (rounds : Nat) (s : Scanner) (answer : Bool)
      (hrounds : maxSteps ≤ rounds + s.steps) :
      Does s depth answer [.find p, .whileFound p] (repeatedFor production (rounds + 1))
        AnyAnswer := by
    induction rounds generalizing s answer with
    -- All steps have been counted, so the last round cannot count its own.
    | zero => exact does_repeatedFor_succ h fun _ _ _ hleft => by omega
    | succ rounds ih =>
      exact does_repeatedFor_succ h fun t answer hlt _ => ih t answer (by omega)
  exact hrounds maxSteps s answer (Nat.le_add_right _ _)

/-! ### Types -/

/-- What is inside types on a level: nothing, if there are no more levels, and otherwise the
types that the tasks read on the next level. -/
def Inside (depth : Int) : Option (Scan Bool) → Prop
  | none => maxLevels < depth + 1
  | some field => depth + 1 ≤ maxLevels ∧ Performs (depth + 1) .fieldType field

theorem performs_typeVariable : Performs depth .typeVariable typeVariable := by
  intro s answer
  rw [← bind_pure typeVariable]
  apply Does.scan (fun _ => by rw [Task.perform, Production.perform])
  intro found _ _ _
  exact ⟨Nat.le_refl _, found, rfl, .refl _⟩

theorem performs_typeOf {field : Scan Bool} (h : Performs depth .fieldType field) :
    Performs depth .type (typeOf field) := by
  intro s answer
  unfold typeOf
  apply Does.scan (fun _ => by rw [Task.perform, Production.perform])
  intro head t _ below
  cases head with
  | none => exact ⟨Nat.le_refl _, false, rfl, .refl _⟩
  | some c =>
    unfold Moment.typeFrom
    dsimp only
    split
    · exact ComesTo.scan fun _ u _ => ⟨Nat.le_refl _, true, rfl, .refl _⟩
    · exact h t answer below

theorem performs_accept {p : Production} {c : Char} {next : Moment → Moment} {found : Scan Bool}
    (hperform : ∀ m, p.perform m = m.scan (accept c) fun found m =>
      if found then next m else m.answering false)
    (hnext : ∀ t answer below,
      ComesTo (next ⟨t, depth, answer, below, none⟩) depth below IsAnswer (found t)) :
    Performs depth p (accept c >>= fun b => if !b then pure false else found) := by
  intro s answer
  refine Does.scan (fun _ => hperform _) ?_
  intro accepted t _ below
  cases accepted with
  | false => exact ⟨Nat.le_refl _, false, rfl, .refl _⟩
  | true => exact hnext t answer below

theorem performs_typeArgument {field : Scan Bool} (h : Performs depth .fieldType field) :
    Performs depth .typeArgument (typeArgument field) := by
  intro s answer
  unfold typeArgument
  apply Does.scan (fun _ => by rw [Task.perform, Production.perform])
  intro head t _ below
  have hany : ComesTo (Moment.scan ⟨t, depth, answer, below, none⟩ bump
      fun _ m => m.answering true) depth below IsAnswer ((bump >>= fun _ => pure true) t) :=
    ComesTo.scan fun _ u _ => ⟨Nat.le_refl _, true, rfl, .refl _⟩
  have hwildcard : ComesTo (Moment.scan ⟨t, depth, answer, below, none⟩ bump
      fun _ m => m.push [.find .fieldType, .answer true]) depth below IsAnswer
      ((bump >>= fun _ => field >>= fun _ => pure true) t) :=
    ComesTo.scan fun _ u _ => (h u answer).andAnswer true below
  cases head with
  | none => exact ⟨Nat.le_refl _, false, rfl, .refl _⟩
  | some c =>
    by_cases hstar : c = '*'
    · subst hstar
      exact hany
    by_cases hplus : c = '+'
    · subst hplus
      exact hwildcard
    by_cases hminus : c = '-'
    · subst hminus
      exact hwildcard
    have htype := h t answer below
    simpa [Moment.typeArgumentFrom, Moment.push, hstar, hplus, hminus] using htype

/-- A level is entered by the tasks when it is by the productions. -/
theorem ComesTo.entering {inner : Option (Scan Bool)} (hinner : Inside depth inner)
    {tasks below : List Task} {tells : α → Bool → Prop} {f : Scan Bool → Scan α} {s : Scanner}
    {answer : Bool} (h : ∀ field, Performs (depth + 1) .fieldType field →
      ComesTo ⟨s, depth + 1, answer, tasks ++ below, none⟩ depth below tells (f field s)) :
    ComesTo (Moment.entering ⟨s, depth, answer, below, none⟩ tasks) depth below tells
      ((entered inner >>= f) s) := by
  unfold Moment.entering
  dsimp only
  cases inner with
  | none =>
    rw [if_pos (show (maxLevels : Int) < depth + 1 from hinner)]
    exact ⟨_, .refl _, rfl, rfl, rfl⟩
  | some field =>
    rw [if_neg (Int.not_lt.2 hinner.1)]
    exact h field hinner.2

theorem performs_arrayType {inner : Option (Scan Bool)} (hinner : Inside depth inner) :
    Performs depth .arrayType (arrayType inner) := by
  apply performs_accept (fun _ => by rw [Production.perform])
  intro t answer below
  apply ComesTo.entering hinner
  intro field hfield
  have helement := (performs_typeOf hfield t answer).leave (.answer true :: below)
  exact helement.bind fun _ u found _ _ _ => Does.answering true below

theorem does_typeArguments {inner : Option (Scan Bool)} (hinner : Inside depth inner)
    (s : Scanner) (answer : Bool) :
    Does s depth answer [.typeArguments] (typeArguments inner) AnyAnswer := by
  unfold typeArguments
  apply Does.scan (fun _ => by rw [Task.perform])
  intro found t _ below
  cases found with
  | false => exact ⟨Nat.le_refl _, answer, trivial, .refl _⟩
  | true =>
    apply ComesTo.entering hinner
    intro field hfield
    have hall : Does t (depth + 1) answer
        [.find .typeArgument, .whileFound .typeArgument, .expect '>']
        (repeated (typeArgument field) >>= fun _ => expect '>') AnyAnswer :=
      Does.bind (does_repeated (performs_typeArgument hfield) t answer)
        fun _ _ _ _ _ _ => Does.expect '>'
    exact hall.leave below

/-! ### Classes -/

theorem does_suffix {next : Scan Unit} {s : Scanner} {answer : Bool} {full : String}
    (hnext : ∀ t answer, t.steps = s.steps →
      Does t depth answer [.simpleClass (full ++ "$")] next AnyAnswer) :
    Does s depth answer [.suffix full] (suffixesOrEnd next) AnyAnswer := by
  unfold suffixesOrEnd
  apply Does.scan (fun _ => by rw [Task.perform])
  intro found t hok below
  cases found with
  | false => exact Does.expect ';' below
  | true => exact hnext t answer ((Acts.accept '.').steps_eq hok) below

theorem simpleClass_of_span {inner : Option (Scan Bool)} {next : String → Scan Unit}
    {outer : String} {s : Scanner} {name rest : List Char}
    (h : s.rest.span (!endsName ·) = (name, rest)) :
    simpleClass inner next outer s =
      (match ClassId.ofText? (outer ++ String.ofList name) with
      | none => fail (.badClassName (outer ++ String.ofList name))
      | some id => handOver inner (next (outer ++ String.ofList name ++ "$")) id name rest :
        Scan Unit) s := by
  obtain ⟨rfl, rfl⟩ := Prod.mk.inj h
  rfl

/-- A class is handed over, and what is behind its name is read from there. -/
theorem does_name {inner : Option (Scan Bool)} (hinner : Inside depth inner)
    {next : String → Scan Unit} {s : Scanner} (outer : String) (answer : Bool)
    (hnext : ∀ t answer full, s.steps ≤ t.steps →
      Does t depth answer [.simpleClass full] (next full) AnyAnswer) :
    Does s depth answer [.name outer] (simpleClass inner next outer) AnyAnswer := by
  intro below
  refine ComesTo.head rfl ?_
  change ComesTo ((Task.name outer).perform ⟨s, depth, answer, below, none⟩) depth below AnyAnswer _
  rw [Task.perform]
  rcases hspan : s.rest.span (!endsName ·) with ⟨name, rest⟩
  rw [simpleClass_of_span hspan]
  dsimp only
  cases ClassId.ofText? (outer ++ String.ofList name) with
  | none => exact ⟨_, .refl _, rfl, rfl, rfl⟩
  | some id =>
    let full := outer ++ String.ofList name
    have hbehind {t : Scanner} (ht : t.steps = s.steps) :
        Does t depth answer [.typeArguments, .suffix full]
          (typeArguments inner >>= fun _ => suffixesOrEnd (next (full ++ "$"))) AnyAnswer := by
      apply Does.bind (does_typeArguments hinner t answer)
      intro _ u found _ hsteps _
      apply does_suffix
      intro v last hv
      exact hnext v last (full ++ "$") (by omega)
    apply ComesTo.scan (f := fun _ => typeArguments inner >>= fun _ =>
      suffixesOrEnd (next (full ++ "$")))
    intro _ t hok
    have ht : t.steps = s.steps := by
      cases hok
      rfl
    exact hbehind ht below

/-- Each class counts a step, so the rounds do not run out. -/
theorem does_simpleClasses {inner : Option (Scan Bool)} (hinner : Inside depth inner)
    (rounds : Nat) (outer : String) (s : Scanner) (answer : Bool)
    (hrounds : maxSteps ≤ rounds + s.steps) :
    Does s depth answer [.simpleClass outer] (simpleClasses inner (rounds + 1) outer)
      AnyAnswer := by
  have htick {rounds : Nat} {outer : String} {s : Scanner} {answer : Bool}
      (hnext : ∀ t answer full, s.steps < t.steps → s.steps < maxSteps →
        Does t depth answer [.simpleClass full] (simpleClasses inner rounds full) AnyAnswer) :
      Does s depth answer [.simpleClass outer] (simpleClasses inner (rounds + 1) outer)
        AnyAnswer := by
    have hbehind : Does s depth answer [.tick, .name outer]
        (simpleClasses inner (rounds + 1) outer) AnyAnswer := by
      apply Does.bind Does.tick
      intro _ t answer ht _ _
      obtain ⟨hticked, hle⟩ := steps_of_tick ht
      exact does_name hinner outer answer
        fun u answer full hsteps => hnext u answer full (by omega) (by omega)
    exact Does.push (fun _ => by rw [Task.perform]; rfl) hbehind
  induction rounds generalizing outer s answer with
  -- All steps have been counted, so this class cannot count its own.
  | zero => exact htick fun _ _ _ _ hleft => by omega
  | succ rounds ih => exact htick fun t last full hlt _ => ih full t last (by omega)

theorem does_packages {inner : Option (Scan Bool)} (hinner : Inside depth inner) (s : Scanner)
    (answer : Bool) :
    Does s depth answer [.packages]
      (packages >>= fun before => simpleClasses inner (maxSteps + 1) before) AnyAnswer := by
  apply Does.scan (fun _ => by rw [Task.perform])
  intro before t _ below
  exact does_simpleClasses hinner maxSteps before t answer (Nat.le_add_right _ _) below

theorem performs_classType {inner : Option (Scan Bool)} (hinner : Inside depth inner) :
    Performs depth .classType (classType inner) := by
  apply performs_accept (fun _ => by rw [Production.perform])
  intro t answer below
  have h := (does_packages hinner t answer).andAnswer true below
  rw [bind_assoc] at h
  exact h

/-! ### Levels -/

theorem fieldTypeIn_eq (inner : Option (Scan Bool)) :
    fieldTypeIn inner = either (either (classType inner) (arrayType inner)) typeVariable := by
  unfold fieldTypeIn either
  rw [bind_assoc]
  congr 1
  funext found
  cases found <;> rfl

theorem performs_fieldTypeIn {inner : Option (Scan Bool)} (hinner : Inside depth inner) :
    Performs depth .fieldType (fieldTypeIn inner) := by
  intro s answer
  rw [fieldTypeIn_eq]
  refine Does.push (fun _ => by rw [Task.perform, Production.perform]; rfl) ?_
  have hclass : Does s depth answer [.find .classType, .orElse .arrayType]
      (either (classType inner) (arrayType inner)) IsAnswer :=
    (performs_classType hinner s answer).either fun t => performs_arrayType hinner t false
  exact hclass.either fun t => performs_typeVariable t false

theorem inside_below (levels : Nat) (depth : Int) (h : depth + levels = maxLevels) :
    Inside depth (below levels) := by
  induction levels generalizing depth with
  | zero =>
    change (maxLevels : Int) < depth + 1
    omega
  | succ levels ih =>
    refine ⟨by omega, ?_⟩
    rw [fieldTypeOf_eq]
    exact performs_fieldTypeIn (ih (depth + 1) (by omega))

theorem inside_belowTop : Inside 0 belowTop :=
  inside_below maxLevels 0 (Int.zero_add _)

theorem performs_topClassType : Performs 0 .classType topClassType :=
  performs_classType inside_belowTop

theorem performs_fieldType : Performs 0 .fieldType fieldType :=
  performs_fieldTypeIn inside_belowTop

theorem performs_type : Performs 0 .type type :=
  performs_typeOf performs_fieldType

/-! ### Signatures -/

theorem performs_bound : Performs 0 .bound bound := by
  apply performs_accept (fun _ => by rw [Production.perform])
  intro t answer below
  exact (performs_fieldType t answer).andAnswer true below

theorem performs_thrown : Performs 0 .thrown thrown := by
  apply performs_accept (fun _ => by rw [Production.perform])
  intro t answer below
  have heither : Does t 0 answer [.find .typeVariable, .orElse .classType]
      (either typeVariable topClassType) IsAnswer :=
    (performs_typeVariable t answer).either fun u => performs_topClassType u false
  exact heither.andAnswer true below

theorem bound_of_head? {s : Scanner} (h : s.rest.head? = some ':') :
    bound s = (expect ':' >>= fun _ => fieldType >>= fun _ => pure true : Scan Bool) s := by
  have haccept : accept ':' s = (bump >>= fun _ => pure true : Scan Bool) s := by
    change (if s.rest.head? = some ':' then bump >>= fun _ => pure true else pure false :
      Scan Bool) s = _
    rw [if_pos h]
  have hexpect : expect ':' s = bump s := by
    change (if s.rest.head? = some ':' then bump else fail (.expected ':') : Scan Unit) s = _
    rw [if_pos h]
  change EStateM.bind (accept ':') _ s = EStateM.bind (expect ':') _ s
  unfold EStateM.bind
  rw [haccept, hexpect]
  rfl

theorem namedParameter_of_span {s : Scanner} {name rest : List Char}
    (h : s.rest.span (· != ':') = (name, rest)) :
    namedParameter s = (if rest.isEmpty then fail .missingBound
      else pass name rest >>= fun _ => bound >>= fun _ => repeated bound >>= fun _ => pure true :
        Scan Bool) s := by
  change (if (s.rest.span (· != ':')).2.isEmpty then _ else
    pass (s.rest.span (· != ':')).1 (s.rest.span (· != ':')).2 >>= _ : Scan Bool) s = _
  rw [h]
  cases rest <;> rfl

/-- The tasks behind the name take its colon for the first bound. -/
theorem does_bounds {s : Scanner} (hcolon : s.rest.head? = some ':') (answer : Bool) :
    Does s 0 answer
      [.expect ':', .find .fieldType, .find .bound, .whileFound .bound, .answer true]
      (bound >>= fun _ => repeated bound >>= fun _ => pure true) IsAnswer := by
  have hfirst : Does s 0 answer [.expect ':', .find .fieldType]
      (expect ':' >>= fun _ => fieldType >>= fun _ => pure true : Scan Bool)
      fun _ _ => True :=
    Does.bind (Does.expect ':') fun _ t answer _ _ _ =>
      Does.bind (performs_fieldType t answer) fun _ _ _ _ _ _ => Does.pure trivial
  have hbound : Does s 0 answer [.expect ':', .find .fieldType] bound fun _ _ => True := by
    intro below
    rw [bound_of_head? hcolon]
    exact hfirst below
  exact Does.bind hbound fun _ t answer _ _ _ =>
    (does_repeated performs_bound t answer).andAnswer true

theorem comesTo_namedParameter (s : Scanner) (answer : Bool) (below : List Task) :
    ComesTo (Moment.parameterName ⟨s, 0, answer, below, none⟩) 0 below IsAnswer
      (namedParameter s) := by
  unfold Moment.parameterName
  rcases hspan : s.rest.span (· != ':') with ⟨name, rest⟩
  rw [namedParameter_of_span hspan]
  dsimp only
  cases rest with
  | nil => exact ⟨_, .refl _, rfl, rfl, rfl⟩
  | cons colon rest =>
    obtain rfl : colon = ':' := by simpa using (exists_of_span hspan).2.2 colon rest rfl
    simp only [List.isEmpty_cons, Bool.false_eq_true, if_false]
    apply ComesTo.scan
    intro _ u hu
    cases hu
    exact does_bounds rfl answer below

theorem performs_typeParameter : Performs 0 .typeParameter typeParameter := by
  intro s answer
  rw [typeParameter_eq]
  apply Does.scan (fun _ => by rw [Task.perform, Production.perform])
  intro head t _ below
  cases head with
  | none => exact ⟨Nat.le_refl _, false, rfl, .refl _⟩
  | some c =>
    by_cases hclose : c = '>'
    · subst hclose
      exact ⟨Nat.le_refl _, false, rfl, .refl _⟩
    have hnamed := comesTo_namedParameter t answer below
    simpa [Moment.typeParameterFrom, hclose] using hnamed

theorem does_typeParameters (s : Scanner) (answer : Bool) :
    Does s 0 answer [.typeParameters] typeParameters AnyAnswer := by
  unfold typeParameters
  apply Does.scan (fun _ => by rw [Task.perform])
  intro found t _ below
  cases found with
  | false => exact ⟨Nat.le_refl _, answer, trivial, .refl _⟩
  | true =>
    have hall : Does t 0 answer [.find .typeParameter, .whileFound .typeParameter, .expect '>']
        (repeated typeParameter >>= fun _ => expect '>') AnyAnswer :=
      (does_repeated performs_typeParameter t answer).bind fun _ _ _ _ _ _ => Does.expect '>'
    exact hall below

theorem does_returnType (s : Scanner) (answer : Bool) :
    Does s 0 answer [.returnType] returnType AnyAnswer := by
  unfold returnType
  apply Does.scan (fun _ => by rw [Task.perform])
  intro found t _ below
  cases found with
  | true => exact ⟨Nat.le_refl _, answer, trivial, .refl _⟩
  | false =>
    have htype : Does t 0 answer [.find .type] (type >>= fun _ => pure ()) AnyAnswer :=
      (performs_type t answer).bind fun _ _ _ _ _ _ => Does.pure trivial
    exact htype below

/-- The tasks of a signature do what its production does. -/
theorem does_production (kind : SignatureKind) (s : Scanner) (answer : Bool) :
    Does s 0 answer (tasksOf kind) (production kind) AnyAnswer := by
  cases kind with
  | ofClass =>
    have hclass : Does s 0 answer
        [.typeParameters, .find .classType, .find .classType, .whileFound .classType]
        classSignature AnyAnswer :=
      Does.bind (does_typeParameters s answer) fun _ t answer _ _ _ =>
        Does.bind (performs_topClassType t answer) fun _ u answer _ _ _ =>
          does_repeated performs_topClassType u answer
    exact Does.bind hclass fun _ _ _ _ _ _ => Does.finish
  | ofField => exact Does.bind (performs_fieldType s answer) fun _ _ _ _ _ _ => Does.finish
  | ofMethod =>
    have hmethod : Does s 0 answer
        [.typeParameters, .expect '(', .find .type, .whileFound .type, .expect ')', .returnType,
          .find .thrown, .whileFound .thrown] methodSignature AnyAnswer :=
      Does.bind (does_typeParameters s answer) fun _ _ _ _ _ _ =>
        Does.bind (Does.expect '(') fun _ t answer _ _ _ =>
          Does.bind (does_repeated performs_type t answer) fun _ _ _ _ _ _ =>
            Does.bind (Does.expect ')') fun _ t answer _ _ _ =>
              Does.bind (does_returnType t answer) fun _ t answer _ _ _ =>
                does_repeated performs_thrown t answer
    exact Does.bind hmethod fun _ _ _ _ _ _ => Does.finish
  | ofType => exact Does.bind (performs_type s answer) fun _ _ _ _ _ _ => Does.finish

end ClassAtlas.Signature
