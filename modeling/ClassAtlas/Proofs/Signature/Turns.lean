import ClassAtlas.Proofs.Signature.Machine
import ClassAtlas.Proofs.Signature.Reading
import ClassAtlas.Proofs.Signature.Soundness

/-!
# What a step can do

An action on the scanner passes over characters, or it fails where it stands. A task makes one
of a few moves, whatever the text ahead: `Allows` lists them, with the bytes that are passed over
at least, and `Turn` says that nothing else happens in a step. What holds of all moments on the
way through a signature is then read off the list of moves and not off the text.
-/

namespace ClassAtlas.Signature

open Scan

variable {α : Type}

/-! ### Actions -/

/-- Behind `s` a scanner has passed over at least so many bytes and counted so many steps. -/
structure Passes (least ticks : Nat) (s t : Scanner) : Prop where
  exists_passed : ∃ passed, s.rest = passed ++ t.rest ∧ t.position = s.position + bytes passed ∧
    least ≤ bytes passed
  steps_eq : t.steps = s.steps + ticks

theorem Passes.refl (s : Scanner) : Passes 0 0 s s :=
  ⟨⟨[], rfl, rfl, Nat.le_refl 0⟩, rfl⟩

theorem Passes.steps_le {least limit : Nat} {s t : Scanner} (h : Passes least 0 s t)
    (hsteps : s.steps ≤ limit) : t.steps ≤ limit := by
  rw [h.steps_eq]
  exact hsteps

/-- By its answer, an action passes over at least so many bytes, or it fails where it stands. It
counts no steps. -/
def Acts (action : Scan α) (least : α → Nat) (s : Scanner) : Prop :=
  match action s with
  | .ok a t => Passes (least a) 0 s t
  | .error stop t => t = s ∧ stop.position = s.position ∧ stop.fault ≠ .tooManyElements

namespace Acts

variable {least : α → Nat} {s : Scanner}

theorem pure {a : α} (h : least a = 0) : Acts (Pure.pure a) least s :=
  show Passes (least a) 0 s s from h ▸ Passes.refl s

theorem fail {fault : SignatureFault} (h : fault ≠ .tooManyElements) :
    Acts (Scan.fail fault : Scan α) least s :=
  ⟨rfl, rfl, h⟩

theorem peek {f : Option Char → Scan α} (h : Acts (f s.rest.head?) least s) :
    Acts (Scan.peek >>= f) least s :=
  h

theorem get {f : Scanner → Scan α} (h : Acts (f s) least s) :
    Acts (MonadState.get >>= f) least s :=
  h

theorem pass {name rest : List Char} {a : α} (h : s.rest = name ++ rest)
    (hleast : least a ≤ bytes name) : Acts (do Scan.pass name rest; return a) least s :=
  show Passes (least a) 0 s { s with rest, position := s.position + bytes name } from
    ⟨⟨name, h, rfl, hleast⟩, rfl⟩

theorem bump_eq_pass {c : Char} {rest : List Char} (h : s.rest = c :: rest) :
    Scan.bump s = Scan.pass [c] rest s := by
  change EStateM.Result.ok () _ = EStateM.Result.ok () _
  simp [h]

theorem bump {c : Char} {a : α} (h : s.rest.head? = some c) (hleast : least a ≤ 1) :
    Acts (do Scan.bump; return a) least s := by
  obtain ⟨rest, hrest⟩ := List.head?_eq_some_iff.1 h
  have hpass : (do Scan.bump; return a : Scan α) s =
      (do Scan.pass [c] rest; return a : Scan α) s := by
    change EStateM.bind Scan.bump _ s = EStateM.bind (Scan.pass [c] rest) _ s
    rw [EStateM.bind, EStateM.bind, bump_eq_pass hrest]
  have hsize : 1 ≤ bytes [c] := one_le_bytes (List.cons_ne_nil c [])
  unfold Acts
  rw [hpass]
  exact pass (show s.rest = [c] ++ rest from hrest) (hleast.trans hsize)

theorem bumpAlone {c : Char} (h : s.rest.head? = some c) : Acts Scan.bump (fun _ => 1) s :=
  bump h (Nat.le_refl 1)

theorem accept (c : Char) : Acts (Scan.accept c) (fun found => found.toNat) s := by
  unfold Scan.accept
  apply peek
  split
  · next h => exact bump h (Nat.le_refl 1)
  · exact pure rfl

theorem expect (c : Char) : Acts (Scan.expect c) (fun _ => 1) s := by
  unfold Scan.expect
  apply peek
  split
  · next h => exact bump h (Nat.le_refl 1)
  · exact fail (by simp)

theorem finish : Acts Scan.finish (fun _ => 0) s := by
  unfold Scan.finish
  apply peek
  split
  · exact fail (by simp)
  · exact pure rfl

theorem typeVariable : Acts Signature.typeVariable (fun found => found.toNat) s := by
  unfold Signature.typeVariable
  apply peek
  split
  · exact pure rfl
  · apply get
    rcases hspan : s.rest.span (· != ';') with ⟨name, _ | ⟨c, rest⟩⟩
    · exact fail (by simp)
    · obtain ⟨hchars, -, hends⟩ := exists_of_span hspan
      obtain rfl : c = ';' := by simpa using hends c rest rfl
      exact pass (by simp [hchars]) (one_le_bytes (by simp))

theorem packages : Acts Signature.packages (fun _ => 0) s := by
  unfold Signature.packages
  apply get
  have hfront (name : List Char) (h : name <+: s.rest) :
      s.rest = name ++ s.rest.drop name.length :=
    (List.prefix_iff_eq_append.1 h).symm
  exact pass (hfront _ ((List.take_prefix _ _).trans (List.takeWhile_prefix _))) (Nat.zero_le _)

end Acts

theorem tick_eq (s : Scanner) :
    tick s = (if maxSteps < s.steps + 1 then fail .tooManyElements else pure () : Scan Unit)
      { s with steps := s.steps + 1 } :=
  rfl

/-! ### Moves -/

/-- What a task does: the bytes that are passed over at least, the steps that are counted, the
levels that are entered, the answer behind it and the tasks that it makes. -/
structure Move where
  least : Nat := 0
  ticks : Nat := 0
  levels : Int := 0
  answer : Bool
  pushed : List Task := []

/-- The moves of a task, by the answer that was given last. Every production may find nothing,
and it has passed over something when it finds something. -/
inductive Allows : Task → Bool → Move → Prop
  | expect (c : Char) (answer : Bool) : Allows (.expect c) answer { answer, least := 1 }
  | tick (answer : Bool) : Allows .tick answer { answer, ticks := 1 }
  | finish (answer : Bool) : Allows .finish answer { answer }
  | leave (answer : Bool) : Allows .leave answer { answer, levels := -1 }
  | answer (found answer : Bool) : Allows (.answer found) answer { answer := found }
  | orElseFound (p : Production) {answer : Bool} (h : answer = true) :
      Allows (.orElse p) answer { answer }
  | orElseMissed (p : Production) {answer : Bool} (h : answer = false) :
      Allows (.orElse p) answer { answer, pushed := [.find p] }
  | whileFound (p : Production) {answer : Bool} (h : answer = true) :
      Allows (.whileFound p) answer { answer, pushed := [.tick, .find p, .whileFound p] }
  | whileMissed (p : Production) {answer : Bool} (h : answer = false) :
      Allows (.whileFound p) answer { answer }
  | missed (p : Production) (answer : Bool) : Allows (.find p) answer { answer := false }
  | found (p : Production) (answer : Bool) :
      Allows (.find p) answer { answer := true, least := 1 }
  | type (answer : Bool) : Allows (.find .type) answer { answer, pushed := [.find .fieldType] }
  | fieldType (answer : Bool) : Allows (.find .fieldType) answer
      { answer, pushed := [.find .classType, .orElse .arrayType, .orElse .typeVariable] }
  | arrayType (answer : Bool) : Allows (.find .arrayType) answer
      { answer, least := 1, levels := 1, pushed := [.find .type, .leave, .answer true] }
  | classType (answer : Bool) : Allows (.find .classType) answer
      { answer, least := 1, pushed := [.packages, .answer true] }
  | typeArgument (answer : Bool) :
      Allows (.find .typeArgument) answer { answer, pushed := [.find .fieldType] }
  | wildcard (answer : Bool) : Allows (.find .typeArgument) answer
      { answer, least := 1, pushed := [.find .fieldType, .answer true] }
  | bound (answer : Bool) : Allows (.find .bound) answer
      { answer, least := 1, pushed := [.find .fieldType, .answer true] }
  | typeParameter (answer : Bool) : Allows (.find .typeParameter) answer
      { answer, pushed := [.expect ':', .find .fieldType, .find .bound, .whileFound .bound,
        .answer true] }
  | thrown (answer : Bool) : Allows (.find .thrown) answer
      { answer, least := 1, pushed := [.find .typeVariable, .orElse .classType, .answer true] }
  | packages (before : String) (answer : Bool) :
      Allows .packages answer { answer, pushed := [.simpleClass before] }
  | simpleClass (outer : String) (answer : Bool) :
      Allows (.simpleClass outer) answer { answer, pushed := [.tick, .name outer] }
  | name (outer full : String) (answer : Bool) :
      Allows (.name outer) answer { answer, pushed := [.typeArguments, .suffix full] }
  | nested (outer full : String) (answer : Bool) :
      Allows (.suffix outer) answer { answer, least := 1, pushed := [.simpleClass full] }
  | ends (outer : String) (answer : Bool) :
      Allows (.suffix outer) answer { answer, pushed := [.expect ';'] }
  | noTypeArguments (answer : Bool) : Allows .typeArguments answer { answer }
  | typeArguments (answer : Bool) : Allows .typeArguments answer
      { answer, least := 1, levels := 1
        pushed := [.find .typeArgument, .whileFound .typeArgument, .expect '>', .leave] }
  | noTypeParameters (answer : Bool) : Allows .typeParameters answer { answer }
  | typeParameters (answer : Bool) : Allows .typeParameters answer
      { answer, least := 1
        pushed := [.find .typeParameter, .whileFound .typeParameter, .expect '>'] }
  | void (answer : Bool) : Allows .returnType answer { answer, least := 1 }
  | result (answer : Bool) : Allows .returnType answer { answer, pushed := [.find .type] }

/-- The moment behind a move that leads the scanner to `s`. -/
def Moment.behind (m : Moment) (move : Move) (s : Scanner) (below : List Task) : Moment where
  toScanner := s
  depth := m.depth + move.levels
  answer := move.answer
  tasks := move.pushed ++ below

/-- What a step makes of a moment whose first task is `task`, with the tasks `below` behind it. -/
inductive Turn (m : Moment) (task : Task) (below : List Task) : Moment → Prop
  /-- A move within the limits. -/
  | goes {move : Move} {s : Scanner} (hallows : Allows task m.answer move)
      (hpasses : Passes move.least move.ticks m.toScanner s)
      (hsteps : m.steps ≤ maxSteps → s.steps ≤ maxSteps)
      (hdepth : m.depth ≤ maxLevels → m.depth + move.levels ≤ maxLevels) :
      Turn m task below (m.behind move s below)
  /-- A move beyond a limit. -/
  | exceeds {move : Move} {s : Scanner} {stop : Stop} (hallows : Allows task m.answer move)
      (hpasses : Passes move.least move.ticks m.toScanner s)
      (hposition : stop.position = s.position)
      (hfault : stop.fault = .tooManyElements → maxSteps < s.steps) :
      Turn m task below ((m.behind move s below).failing stop)
  /-- No move at all. -/
  | stuck {stop : Stop} (hposition : stop.position = m.position)
      (hfault : stop.fault ≠ .tooManyElements) : Turn m task below (m.failing stop)

namespace Turn

variable {m : Moment} {task : Task} {below : List Task} (hrun : m.stop? = none)

theorem failing {stop : Stop} (hposition : stop.position = m.position)
    (hfault : stop.fault ≠ .tooManyElements) :
    Turn m task below ({ m with tasks := below }.failing stop) :=
  stuck hposition hfault

theorem scan {action : Scan α} {next : α → Moment → Moment} {least : α → Nat}
    (hacts : Acts action least m.toScanner) (hnext : ∀ a s, Passes (least a) 0 m.toScanner s →
      Turn m task below (next a { m with toScanner := s, tasks := below })) :
    Turn m task below ({ m with tasks := below }.scan action next) := by
  unfold Moment.scan Acts at *
  revert hacts
  dsimp only
  cases action m.toScanner with
  | ok a s => exact hnext a s
  | error stop s =>
    rintro ⟨rfl, hposition, hfault⟩
    exact stuck hposition hfault

include hrun

theorem plain {move : Move} {s : Scanner} (hallows : Allows task m.answer move)
    (hticks : move.ticks = 0) (hlevels : move.levels = 0)
    (hpasses : Passes move.least 0 m.toScanner s) :
    Turn m task below
      { m with toScanner := s, answer := move.answer, tasks := move.pushed ++ below } := by
  have hbehind : m.behind move s below =
      { m with toScanner := s, answer := move.answer, tasks := move.pushed ++ below } := by
    simp [Moment.behind, hlevels, hrun]
  rw [← hbehind]
  refine goes hallows (hticks ▸ hpasses) hpasses.steps_le fun hdepth => ?_
  rw [hlevels, Int.add_zero]
  exact hdepth

theorem still {move : Move} (hallows : Allows task m.answer move) (hleast : move.least = 0)
    (hticks : move.ticks = 0) (hlevels : move.levels = 0) :
    Turn m task below { m with answer := move.answer, tasks := move.pushed ++ below } :=
  plain hrun hallows hticks hlevels (hleast ▸ Passes.refl m.toScanner)

theorem entering {move : Move} {s : Scanner} (hallows : Allows task m.answer move)
    (hticks : move.ticks = 0) (hlevels : move.levels = 1) (hanswer : move.answer = m.answer)
    (hpasses : Passes move.least 0 m.toScanner s) :
    Turn m task below ({ m with toScanner := s, tasks := below }.entering move.pushed) := by
  have hbehind : m.behind move s below =
      { m with toScanner := s, depth := m.depth + 1, tasks := move.pushed ++ below } := by
    simp [Moment.behind, hlevels, hanswer, hrun]
  unfold Moment.entering
  dsimp only
  split
  · have hexceeds : Turn m task below ((m.behind move s below).failing
        ⟨s.position, .nestedTooDeeply⟩) :=
      exceeds hallows (hticks ▸ hpasses) rfl (by simp)
    rw [hbehind] at hexceeds
    exact hexceeds
  · next hlimit =>
    have hgoes : Turn m task below (m.behind move s below) := by
      refine goes hallows (hticks ▸ hpasses) hpasses.steps_le fun _ => ?_
      rw [hlevels]
      exact Int.not_lt.1 hlimit
    rw [hbehind] at hgoes
    exact hgoes

theorem answering {p : Production} {found : Bool} {s : Scanner}
    (hpasses : Passes found.toNat 0 m.toScanner s) :
    Turn m (.find p) below ({ m with toScanner := s, tasks := below }.answering found) := by
  cases found with
  | false => exact plain hrun (.missed p m.answer) rfl rfl hpasses
  | true => exact plain hrun (.found p m.answer) rfl rfl hpasses

theorem accepting {p : Production} {c : Char} {next : Moment → Moment}
    (hnext : ∀ s, Passes 1 0 m.toScanner s →
      Turn m (.find p) below (next { m with toScanner := s, tasks := below })) :
    Turn m (.find p) below ({ m with tasks := below }.scan (accept c) fun found m =>
      if found then next m else m.answering false) := by
  apply scan (Acts.accept c)
  intro found s hpasses
  cases found with
  | false => exact answering hrun hpasses
  | true => exact hnext s hpasses

theorem type : Turn m (.find .type) below
    (Production.type.perform { m with tasks := below }) := by
  change Turn m _ below (Moment.typeFrom { m with tasks := below } m.rest.head?)
  cases hhead : m.rest.head? with
  | none => exact still hrun (.missed .type m.answer) rfl rfl rfl
  | some c =>
    unfold Moment.typeFrom
    dsimp only
    split
    · apply scan (Acts.bumpAlone hhead)
      intro _ s hpasses
      exact plain hrun (.found .type m.answer) rfl rfl hpasses
    · exact still hrun (.type m.answer) rfl rfl rfl

theorem typeArgument : Turn m (.find .typeArgument) below
    (Production.typeArgument.perform { m with tasks := below }) := by
  change Turn m _ below (Moment.typeArgumentFrom { m with tasks := below } m.rest.head?)
  have hwildcard {c : Char} (hhead : m.rest.head? = some c) :
      Turn m (.find .typeArgument) below ({ m with tasks := below }.scan bump
        fun _ m => m.push [.find .fieldType, .answer true]) := by
    apply scan (Acts.bumpAlone hhead)
    intro _ s hpasses
    exact plain hrun (.wildcard m.answer) rfl rfl hpasses
  unfold Moment.typeArgumentFrom
  split
  · exact still hrun (.missed .typeArgument m.answer) rfl rfl rfl
  · next hhead =>
    apply scan (Acts.bumpAlone hhead)
    intro _ s hpasses
    exact plain hrun (.found .typeArgument m.answer) rfl rfl hpasses
  · next hhead => exact hwildcard hhead
  · next hhead => exact hwildcard hhead
  · exact still hrun (.typeArgument m.answer) rfl rfl rfl

theorem parameterName :
    Turn m (.find .typeParameter) below (Moment.parameterName { m with tasks := below }) := by
  unfold Moment.parameterName
  rcases hspan : m.rest.span (· != ':') with ⟨name, rest⟩
  dsimp only
  split
  · exact failing rfl (by simp)
  · have hacts : Acts (pass name rest) (fun _ => 0) m.toScanner :=
      Acts.pass (exists_of_span hspan).1 (Nat.zero_le _)
    apply scan hacts
    intro _ s hpasses
    exact plain hrun (.typeParameter m.answer) rfl rfl hpasses

theorem typeParameter : Turn m (.find .typeParameter) below
    (Production.typeParameter.perform { m with tasks := below }) := by
  change Turn m _ below (Moment.typeParameterFrom { m with tasks := below } m.rest.head?)
  unfold Moment.typeParameterFrom
  split
  · exact still hrun (.missed .typeParameter m.answer) rfl rfl rfl
  · exact still hrun (.missed .typeParameter m.answer) rfl rfl rfl
  · exact parameterName hrun

theorem find (p : Production) :
    Turn m (.find p) below (p.perform { m with tasks := below }) := by
  cases p with
  | typeVariable =>
    rw [Production.perform]
    apply scan Acts.typeVariable
    intro found s hpasses
    exact answering hrun hpasses
  | type => exact type hrun
  | fieldType => exact still hrun (.fieldType m.answer) rfl rfl rfl
  | arrayType =>
    rw [Production.perform]
    apply accepting hrun
    intro s hpasses
    exact entering hrun (.arrayType m.answer) rfl rfl rfl hpasses
  | classType =>
    rw [Production.perform]
    apply accepting hrun
    intro s hpasses
    exact plain hrun (.classType m.answer) rfl rfl hpasses
  | typeArgument => exact typeArgument hrun
  | bound =>
    rw [Production.perform]
    apply accepting hrun
    intro s hpasses
    exact plain hrun (.bound m.answer) rfl rfl hpasses
  | typeParameter => exact typeParameter hrun
  | thrown =>
    rw [Production.perform]
    apply accepting hrun
    intro s hpasses
    exact plain hrun (.thrown m.answer) rfl rfl hpasses

/-- Counting a step is a move beyond a limit when there are no more steps. -/
theorem tick : Turn m .tick below ({ m with tasks := below }.scan Scan.tick fun _ m => m) := by
  have hpasses : Passes 0 1 m.toScanner { m.toScanner with steps := m.steps + 1 } :=
    ⟨⟨[], rfl, rfl, Nat.le_refl 0⟩, rfl⟩
  have hbehind : m.behind { answer := m.answer, ticks := 1 }
      { m.toScanner with steps := m.steps + 1 } below =
      { m with steps := m.steps + 1, tasks := below } := by
    simp [Moment.behind, hrun]
  unfold Moment.scan
  rw [tick_eq]
  by_cases h : maxSteps < m.steps + 1
  · rw [if_pos h]
    have hexceeds : Turn m .tick below ((m.behind { answer := m.answer, ticks := 1 }
        { m.toScanner with steps := m.steps + 1 } below).failing ⟨m.position, .tooManyElements⟩) :=
      exceeds (.tick m.answer) hpasses rfl fun _ => h
    rw [hbehind] at hexceeds
    exact hexceeds
  · rw [if_neg h]
    have hgoes : Turn m .tick below (m.behind { answer := m.answer, ticks := 1 }
        { m.toScanner with steps := m.steps + 1 } below) :=
      goes (.tick m.answer) hpasses (fun _ => Nat.not_lt.1 h) fun hdepth => by simpa using hdepth
    rw [hbehind] at hgoes
    exact hgoes

theorem leave : Turn m .leave below { m with depth := m.depth - 1, tasks := below } := by
  have hbehind : m.behind { answer := m.answer, levels := -1 } m.toScanner below =
      { m with depth := m.depth - 1, tasks := below } := by
    simp [Moment.behind, hrun, Int.sub_eq_add_neg]
  rw [← hbehind]
  exact goes (.leave m.answer) (Passes.refl _) id fun h => by simp only; omega

theorem name (outer : String) :
    Turn m (.name outer) below ((Task.name outer).perform { m with tasks := below }) := by
  rw [Task.perform]
  rcases hspan : m.rest.span (!endsName ·) with ⟨simple, rest⟩
  dsimp only
  split
  · exact failing rfl (by simp)
  · next id _ =>
    have hacts : Acts (do submit id; pass simple rest) (fun _ => 0) m.toScanner :=
      ⟨⟨simple, (exists_of_span hspan).1, rfl, Nat.zero_le _⟩, rfl⟩
    apply scan hacts
    intro _ s hpasses
    exact plain hrun (.name outer _ m.answer) rfl rfl hpasses

/-- What a task does is one of its moves, or it fails. -/
theorem perform (task : Task) : Turn m task below (task.perform { m with tasks := below }) := by
  cases task with
  | expect c =>
    rw [Task.perform]
    apply scan (Acts.expect c)
    intro _ s hpasses
    exact plain hrun (.expect c m.answer) rfl rfl hpasses
  | tick => exact tick hrun
  | finish =>
    rw [Task.perform]
    apply scan Acts.finish
    intro _ s hpasses
    exact plain hrun (.finish m.answer) rfl rfl hpasses
  | leave => exact leave hrun
  | answer found => exact still hrun (.answer found m.answer) rfl rfl rfl
  | find p => exact find hrun p
  | orElse p =>
    rw [Task.perform]
    split
    · next h => exact still hrun (.orElseFound p h) rfl rfl rfl
    · next h => exact still hrun (.orElseMissed p (Bool.eq_false_iff.2 h)) rfl rfl rfl
  | whileFound p =>
    rw [Task.perform]
    split
    · next h => exact still hrun (.whileFound p h) rfl rfl rfl
    · next h => exact still hrun (.whileMissed p (Bool.eq_false_iff.2 h)) rfl rfl rfl
  | packages =>
    rw [Task.perform]
    apply scan Acts.packages
    intro before s hpasses
    exact plain hrun (.packages before m.answer) rfl rfl hpasses
  | simpleClass outer => exact still hrun (.simpleClass outer m.answer) rfl rfl rfl
  | name outer => exact name hrun outer
  | suffix outer =>
    rw [Task.perform]
    apply scan (Acts.accept '.')
    intro found s hpasses
    cases found with
    | false => exact plain hrun (.ends outer m.answer) rfl rfl hpasses
    | true => exact plain hrun (.nested outer _ m.answer) rfl rfl hpasses
  | typeArguments =>
    rw [Task.perform]
    apply scan (Acts.accept '<')
    intro found s hpasses
    cases found with
    | false => exact plain hrun (.noTypeArguments m.answer) rfl rfl hpasses
    | true => exact entering hrun (.typeArguments m.answer) rfl rfl rfl hpasses
  | typeParameters =>
    rw [Task.perform]
    apply scan (Acts.accept '<')
    intro found s hpasses
    cases found with
    | false => exact plain hrun (.noTypeParameters m.answer) rfl rfl hpasses
    | true => exact plain hrun (.typeParameters m.answer) rfl rfl hpasses
  | returnType =>
    rw [Task.perform]
    apply scan (Acts.accept 'V')
    intro found s hpasses
    cases found with
    | false => exact plain hrun (.result m.answer) rfl rfl hpasses
    | true => exact plain hrun (.void m.answer) rfl rfl hpasses

end Turn

theorem step_of_tasks_eq_nil {m : Moment} (h : m.tasks = []) : step m = m := by
  rw [step, h]

theorem step_of_tasks_eq_cons {m : Moment} {task : Task} {below : List Task}
    (h : m.tasks = task :: below) : step m = task.perform { m with tasks := below } := by
  rw [step, h]

/-- A step makes one of the moves of the first task, or fails. -/
theorem turn_step {m : Moment} {task : Task} {below : List Task} (h : m.tasks = task :: below)
    (hrun : m.stop? = none) : Turn m task below (step m) := by
  rw [step_of_tasks_eq_cons h]
  exact Turn.perform hrun task

end ClassAtlas.Signature
