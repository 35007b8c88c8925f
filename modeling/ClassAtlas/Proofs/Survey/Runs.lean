import ClassAtlas.Survey
import ClassAtlas.Proofs.Frontier.Submissions
import ClassAtlas.Proofs.Profile.Contents

/-!
# Runs of a survey

A run looks at one outstanding class after another. `look` says what a single class comes
to, whatever the survey knows already, and `Visits` is a row of such looks. Every run, with
any bound, is a row of visits that ends because nothing is outstanding, because the bound
is met, or because a class cannot be looked at. A loader that writes down what it is asked
for shows which classes these were.
-/

namespace ClassAtlas

/-- The classes that a class file names, without their dimensions, in the order in which
they are followed. -/
def ClassFile.named (c : ClassFile) (followsMembers : Bool) : List ClassName :=
  ClassId.names ((c.submissions followsMembers).flatMap (·.outcome.classes))

namespace Survey

variable {load : ClassName → Except Error (List UInt8)}

/-- A survey that is about to start from the given ids. -/
def fresh (probe : Probe) (followsMembers : Bool) (roots : List ClassId) : Survey :=
  roots.foldl submit (start probe followsMembers)

/-- A loader that also writes down what it is asked for, in order. -/
def traced (load : ClassName → Except Error (List UInt8)) (name : ClassName) :
    StateM (List ClassName) (Except Error (List UInt8)) := do
  modify (· ++ [name])
  return load name

/-- The class file that a survey finds for a class, or why it cannot take it in. -/
def look (load : ClassName → Except Error (List UInt8)) (followsMembers : Bool)
    (name : ClassName) : Except Error ClassFile :=
  match load name with
  | .error e => .error e
  | .ok bytes =>
    match ClassFile.decode (some (.ofName name)) bytes with
    | .error e => .error e
    | .ok c =>
      match Submission.fault? (c.submissions followsMembers) with
      | some e => .error e
      | none => .ok c

def looked (s : Survey) (c : ClassFile) : Survey :=
  { s with
    frontier := s.frontier.submitAll (Submission.classes (c.submissions s.followsMembers))
    profile := c.addTo s.profile
    analyzed := s.analyzed + 1 }

theorem follow_eq (submissions : List Submission) (s : Survey) :
    follow submissions s =
      match Submission.fault? submissions with
      | none => .ok () { s with
          frontier := s.frontier.submitAll (Submission.classes submissions) }
      | some e => .error e { s with
          frontier := s.frontier.submitAll (Submission.classes submissions) } := by
  unfold follow EStateM.run
  rw [Frontier.forM_accept]
  cases Submission.fault? submissions <;> rfl

/-- A class file is taken in when it decodes and no signature has a fault. A fault keeps
the classes found before it, and nothing else. -/
theorem visit_eq (id : ClassId) (bytes : List UInt8) (s : Survey) :
    visit id bytes s =
      match ClassFile.decode (some id) bytes with
      | .error e => .error e s
      | .ok c =>
        match Submission.fault? (c.submissions s.followsMembers) with
        | none => .ok () (s.looked c)
        | some e => .error e { s with
            frontier := s.frontier.submitAll
              (Submission.classes (c.submissions s.followsMembers)) } := by
  unfold visit
  cases ClassFile.decode (some id) bytes with
  | error e => rfl
  | ok c =>
    change EStateM.bind (follow (c.submissions s.followsMembers)) _ s = _
    rw [EStateM.bind, follow_eq]
    cases hfault : Submission.fault? (c.submissions s.followsMembers) with
    | none =>
      simp only [hfault]
      rfl
    | some e => simp only [hfault]

/-- A row of visits, each to the class that is next, with the class file found there. -/
inductive Visits (load : ClassName → Except Error (List UInt8)) :
    Survey → List (ClassName × ClassFile) → Survey → Prop
  | nil (s : Survey) : Visits load s [] s
  | cons {s t : Survey} {name : ClassName} {frontier : Frontier} {c : ClassFile}
      {visited : List (ClassName × ClassFile)}
      (hnext : s.frontier.next = (some name, frontier))
      (hlook : look load s.followsMembers name = .ok c)
      (hrest : Visits load ({ s with frontier }.looked c) visited t) :
      Visits load s ((name, c) :: visited) t

/-- One round of a run whose loader has a state of its own. -/
theorem run_succ {σ : Type} (load : ClassName → StateM σ (Except Error (List UInt8))) (visits : Nat)
    (s : Survey) (w : σ) :
    run load (visits + 1) s w =
      match s.frontier.next with
      | (none, _) => ((.finished, s), w)
      | (some name, frontier) =>
        match load name w with
        | (.error e, w) => ((.failed (.inClass (.ofName name) e), { s with frontier }), w)
        | (.ok bytes, w) =>
          match visit (.ofName name) bytes { s with frontier } with
          | .ok _ s => run load visits s w
          | .error e s => ((.failed (.inClass (.ofName name) e), s), w) := by
  rw [run]
  rcases s.frontier.next with ⟨_ | name, frontier⟩
  · rfl
  · have hbind {α : Type} (rest : Except Error (List UInt8) → StateM σ α) :
        (load name >>= rest) w = rest (load name w).1 (load name w).2 := rfl
    dsimp only
    rw [hbind]
    rcases load name w with ⟨_ | bytes, w⟩
    · rfl
    · dsimp only [EStateM.run]
      cases visit (.ofName name) bytes { s with frontier } <;> rfl

theorem run_traced_succ (visits : Nat) (s : Survey) (asked : List ClassName) :
    run (traced load) (visits + 1) s asked =
      match s.frontier.next with
      | (none, _) => ((.finished, s), asked)
      | (some name, frontier) =>
        match load name with
        | .error e =>
          ((.failed (.inClass (.ofName name) e), { s with frontier }), asked ++ [name])
        | .ok bytes =>
          match visit (.ofName name) bytes { s with frontier } with
          | .ok _ s => run (traced load) visits s (asked ++ [name])
          | .error e s => ((.failed (.inClass (.ofName name) e), s), asked ++ [name]) := by
  rw [run_succ]
  rcases s.frontier.next with ⟨_ | name, frontier⟩
  · rfl
  · have hload : traced load name asked = (load name, asked ++ [name]) := rfl
    dsimp only
    rw [hload]
    cases load name <;> rfl

theorem run_traced_of_look_ok {s : Survey} {name : ClassName} {frontier : Frontier}
    {c : ClassFile} (hnext : s.frontier.next = (some name, frontier))
    (hlook : look load s.followsMembers name = .ok c) (visits : Nat) (asked : List ClassName) :
    run (traced load) (visits + 1) s asked =
      run (traced load) visits ({ s with frontier }.looked c) (asked ++ [name]) := by
  rw [run_traced_succ, hnext]
  unfold look at hlook
  cases hload : load name with
  | error e => simp [hload] at hlook
  | ok bytes =>
    simp only [hload, visit_eq] at hlook ⊢
    cases hdecode : ClassFile.decode (some (.ofName name)) bytes with
    | error e => simp [hdecode] at hlook
    | ok found =>
      simp only [hdecode] at hlook ⊢
      cases hfault : Submission.fault? (found.submissions s.followsMembers) with
      | some e => simp [hfault] at hlook
      | none =>
        simp only [hfault, Except.ok.injEq] at hlook ⊢
        rw [hlook]

theorem run_traced_of_look_error {s : Survey} {name : ClassName} {frontier : Frontier}
    {cause : Error} (hnext : s.frontier.next = (some name, frontier))
    (hlook : look load s.followsMembers name = .error cause) (visits : Nat)
    (asked : List ClassName) :
    ∃ left, run (traced load) (visits + 1) s asked =
      ((.failed (.inClass (.ofName name) cause), { s with frontier := left }),
        asked ++ [name]) := by
  rw [run_traced_succ, hnext]
  unfold look at hlook
  cases hload : load name with
  | error e =>
    simp only [hload, Except.error.injEq] at hlook ⊢
    exact ⟨frontier, by rw [hlook]⟩
  | ok bytes =>
    simp only [hload, visit_eq] at hlook ⊢
    cases hdecode : ClassFile.decode (some (.ofName name)) bytes with
    | error e =>
      simp only [hdecode, Except.error.injEq] at hlook ⊢
      exact ⟨frontier, by rw [hlook]⟩
    | ok found =>
      simp only [hdecode] at hlook ⊢
      cases hfault : Submission.fault? (found.submissions s.followsMembers) with
      | none => simp [hfault] at hlook
      | some e =>
        simp only [hfault, Except.error.injEq] at hlook ⊢
        exact ⟨_, by rw [hlook]⟩

/-- How a run with a bound on its visits ends, after the visits it makes. -/
inductive Ends (load : ClassName → Except Error (List UInt8)) (visits : Nat) (s : Survey) :
    Run × Survey → List ClassName → Prop
  | finished {visited : List (ClassName × ClassFile)} {t : Survey}
      (hvisits : Visits load s visited t) (hnext : t.frontier.next.1 = none) :
      Ends load visits s (.finished, t) (visited.map Prod.fst)
  | unfinished {visited : List (ClassName × ClassFile)} {t : Survey}
      (hvisits : Visits load s visited t) (hlength : visited.length = visits)
      (hnext : t.frontier.next.1 ≠ none) :
      Ends load visits s (.unfinished, t) (visited.map Prod.fst)
  | failed {visited : List (ClassName × ClassFile)} {t : Survey} {name : ClassName}
      {cause : Error} (left : Frontier)
      (hvisits : Visits load s visited t) (hnext : t.frontier.next.1 = some name)
      (hlook : look load t.followsMembers name = .error cause) :
      Ends load visits s (.failed (.inClass (.ofName name) cause), { t with frontier := left })
        (visited.map Prod.fst ++ [name])

theorem Ends.cons {s : Survey} {name : ClassName} {frontier : Frontier} {c : ClassFile}
    (hnext : s.frontier.next = (some name, frontier))
    (hlook : look load s.followsMembers name = .ok c) {visits : Nat} {out : Run × Survey}
    {asked : List ClassName} (h : Ends load visits ({ s with frontier }.looked c) out asked) :
    Ends load (visits + 1) s out (name :: asked) := by
  cases h with
  | finished hvisits hdone => exact .finished (.cons hnext hlook hvisits) hdone
  | unfinished hvisits hlength hmore =>
    exact .unfinished (.cons hnext hlook hvisits) (by simp [hlength]) hmore
  | failed left hvisits hat hfail => exact .failed left (.cons hnext hlook hvisits) hat hfail

theorem hasNext_eq (f : Frontier) : f.hasNext = f.next.1.isSome := by
  unfold Frontier.hasNext Frontier.next
  by_cases h : f.taken < f.order.size <;> simp [h]

/-- Every run is a row of visits with one of three ends, and the loader is asked for the
classes visited and for the one that a failure is about. -/
theorem run_traced_ends (visits : Nat) (s : Survey) (asked : List ClassName) :
    ∃ more, (run (traced load) visits s asked).2 = asked ++ more ∧
      Ends load visits s (run (traced load) visits s asked).1 more := by
  induction visits generalizing s asked with
  | zero =>
    refine ⟨[], by simp [run]; rfl, ?_⟩
    change Ends load 0 s (if s.frontier.hasNext then .unfinished else .finished, s) []
    rw [hasNext_eq]
    cases hnext : s.frontier.next.1 with
    | none => exact .finished (.nil s) hnext
    | some name => exact .unfinished (.nil s) rfl (by simp [hnext])
  | succ visits ih =>
    rcases hnext : s.frontier.next with ⟨_ | name, frontier⟩
    · refine ⟨[], ?_, ?_⟩
      · rw [run_traced_succ, hnext, List.append_nil]
      · rw [run_traced_succ, hnext]
        exact .finished (.nil s) (by rw [hnext])
    · cases hlook : look load s.followsMembers name with
      | ok c =>
        obtain ⟨more, hasked, hends⟩ := ih ({ s with frontier }.looked c) (asked ++ [name])
        rw [run_traced_of_look_ok hnext hlook]
        exact ⟨name :: more, by rw [hasked, List.append_assoc]; rfl, hends.cons hnext hlook⟩
      | error cause =>
        obtain ⟨left, hrun⟩ := run_traced_of_look_error hnext hlook visits asked
        rw [hrun]
        exact ⟨[name], rfl, .failed left (.nil s) (by rw [hnext]) hlook⟩

end Survey

end ClassAtlas
