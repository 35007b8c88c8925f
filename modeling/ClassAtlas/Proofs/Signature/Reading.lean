import Mathlib.Algebra.GroupWithZero.Nat
import Mathlib.Data.List.TakeDrop
import ClassAtlas.Signature.Parser

/-!
# Reading productions

`Reads ahead p a cost text found` says that `p` reads exactly `text` wherever something
that satisfies `ahead` stands behind it: it answers `a`, hands over the classes `found` in
order, and takes at most `cost` steps. Readings are put together along `>>=`, and a
repetition reads a list of items when each item costs fewer steps than it has bytes.
-/

namespace ClassAtlas.Signature

open Scan

variable {α β : Type}

/-- Nothing is asked of what stands behind a text. -/
def Anything : List Char → Prop :=
  fun _ => True

theorem anything (ahead : List Char → Prop) : ∀ rest, ahead rest → Anything rest :=
  fun _ _ => trivial

/-- What stands behind a text does not start with `c`. -/
def NotFrom (c : Char) : List Char → Prop :=
  fun rest => rest.head? ≠ some c

def Reads (ahead : List Char → Prop) (p : Scan α) (a : α) (cost : Nat) (text : List Char)
    (found : List ClassId) : Prop :=
  ∀ (s : Scanner) (rest : List Char), ahead rest → s.rest = text ++ rest →
    s.steps + cost ≤ maxSteps →
    ∃ t, p s = .ok a t ∧ t.rest = rest ∧ t.steps ≤ s.steps + cost ∧
      t.found.toList = s.found.toList ++ found

theorem one_le_bytes {text : List Char} (h : text ≠ []) : 1 ≤ bytes text := by
  cases text with
  | nil => exact absurd rfl h
  | cons c rest =>
    have := c.utf8Size_pos
    rw [bytes_cons]
    omega

theorem bind_of_ok {p : Scan α} {f : α → Scan β} {a : α} {s t : Scanner} (h : p s = .ok a t) :
    (p >>= f) s = f a t := by
  change EStateM.bind p f s = f a t
  rw [EStateM.bind, h]

theorem Reads.bind {ahead behind : List Char → Prop} {p : Scan α} {f : α → Scan β} {a : α}
    {b : β} {cost more : Nat} {text later : List Char} {found others : List ClassId}
    (hp : Reads behind p a cost text found) (hf : Reads ahead (f a) b more later others)
    (hbehind : ∀ rest, ahead rest → behind (later ++ rest)) :
    Reads ahead (p >>= f) b (cost + more) (text ++ later) (found ++ others) := by
  intro s rest hrest hs hsteps
  obtain ⟨t, ht, htrest, htsteps, htfound⟩ :=
    hp s (later ++ rest) (hbehind rest hrest) (by rw [hs, List.append_assoc]) (by omega)
  obtain ⟨u, hu, hurest, husteps, hufound⟩ := hf t rest hrest htrest (by omega)
  refine ⟨u, by rw [bind_of_ok ht, hu], hurest, by omega, ?_⟩
  rw [hufound, htfound, List.append_assoc]

/-- Reading on after a production that takes anything behind it. -/
theorem Reads.andThen {ahead : List Char → Prop} {p : Scan α} {f : α → Scan β} {a : α} {b : β}
    {cost more : Nat} {text later : List Char} {found others : List ClassId}
    (hp : Reads Anything p a cost text found) (hf : Reads ahead (f a) b more later others) :
    Reads ahead (p >>= f) b (cost + more) (text ++ later) (found ++ others) :=
  hp.bind hf fun _ _ => trivial

theorem Reads.finally {ahead : List Char → Prop} {p : Scan α} {f : α → Scan β} {a : α} {b : β}
    {cost : Nat} {text : List Char} {found : List ClassId}
    (hp : Reads ahead p a cost text found) (hf : Reads ahead (f a) b 0 [] []) :
    Reads ahead (p >>= f) b cost text found := by
  have h := hp.bind hf fun rest hrest => by rwa [List.nil_append]
  rwa [Nat.add_zero, List.append_nil, List.append_nil] at h

theorem Reads.weaken {ahead behind : List Char → Prop} {p : Scan α} {a : α} {cost more : Nat}
    {text : List Char} {found : List ClassId} (h : Reads behind p a cost text found)
    (hcost : cost ≤ more) (hahead : ∀ rest, ahead rest → behind rest) :
    Reads ahead p a more text found := by
  intro s rest hrest hs hsteps
  obtain ⟨t, ht, htrest, htsteps, htfound⟩ := h s rest (hahead rest hrest) hs (by omega)
  exact ⟨t, ht, htrest, by omega, htfound⟩

theorem reads_pure (ahead : List Char → Prop) (a : α) : Reads ahead (pure a) a 0 [] [] := by
  intro s rest hrest hs hsteps
  exact ⟨s, rfl, hs, by omega, by simp⟩

theorem reads_peek {ahead : List Char → Prop} {f : Option Char → Scan α} {a : α} {cost : Nat}
    {c : Char} {text : List Char} {found : List ClassId}
    (h : Reads ahead (f (some c)) a cost (c :: text) found) :
    Reads ahead (peek >>= f) a cost (c :: text) found := by
  intro s rest hrest hs hsteps
  obtain ⟨t, ht⟩ := h s rest hrest hs hsteps
  have hhead : s.rest.head? = some c := by rw [hs, List.cons_append, List.head?_cons]
  have hpeek : peek s = .ok (some c) s := by
    rw [← hhead]
    rfl
  refine ⟨t, ?_, ht.2⟩
  rw [bind_of_ok hpeek]
  exact ht.1

theorem reads_peek_nil {ahead : List Char → Prop} {f : Option Char → Scan α} {a : α}
    (h : ∀ rest, ahead rest → Reads ahead (f rest.head?) a 0 [] []) :
    Reads ahead (peek >>= f) a 0 [] [] := by
  intro s rest hrest hs hsteps
  obtain ⟨t, ht⟩ := h rest hrest s rest hrest hs hsteps
  refine ⟨t, ?_, ht.2⟩
  have hpeek : peek s = .ok rest.head? s := by
    rw [← show s.rest = rest from hs]
    rfl
  rw [bind_of_ok hpeek]
  exact ht.1

theorem reads_bump (ahead : List Char → Prop) (c : Char) : Reads ahead bump () 0 [c] [] := by
  intro s rest hrest hs hsteps
  refine ⟨{ s with rest, position := s.position + c.utf8Size }, ?_, rfl, by simp, by simp⟩
  change EStateM.Result.ok () _ = _
  simp [hs]

theorem reads_accept (ahead : List Char → Prop) (c : Char) :
    Reads ahead (accept c) true 0 [c] [] := by
  unfold accept
  apply reads_peek
  rw [if_pos rfl]
  exact Reads.finally (f := fun _ => pure true) (reads_bump ahead c) (reads_pure ahead true)

theorem skips_accept (c : Char) : Reads (NotFrom c) (accept c) false 0 [] [] := by
  unfold accept
  apply reads_peek_nil
  intro rest hrest
  rw [if_neg hrest]
  exact reads_pure _ false

theorem reads_after_accept {ahead : List Char → Prop} {c : Char} {f : Bool → Scan α} {a : α}
    {cost : Nat} {text : List Char} {found : List ClassId}
    (h : Reads ahead (f true) a cost text found) :
    Reads ahead (accept c >>= f) a cost (c :: text) found := by
  have haccept := (reads_accept Anything c).andThen h
  rwa [Nat.zero_add] at haccept

theorem reads_expect (ahead : List Char → Prop) (c : Char) :
    Reads ahead (expect c) () 0 [c] [] := by
  unfold expect
  apply reads_peek
  rw [if_pos rfl]
  exact reads_bump ahead c

theorem reads_tick (ahead : List Char → Prop) : Reads ahead tick () 1 [] [] := by
  intro s rest hrest hs hsteps
  refine ⟨{ s with steps := s.steps + 1 }, ?_, hs, Nat.le_refl _, by simp⟩
  have hle : ¬ maxSteps < s.steps + 1 := by omega
  change (if maxSteps < s.steps + 1 then _ else pure () : Scan Unit)
    { s with steps := s.steps + 1 } = _
  rw [if_neg hle]
  rfl

theorem reads_submit (ahead : List Char → Prop) (id : ClassId) :
    Reads ahead (submit id) () 0 [] [id] := by
  intro s rest hrest hs hsteps
  exact ⟨_, rfl, hs, by simp, by simp⟩

theorem reads_finish : Reads (· = []) finish () 0 [] [] := by
  unfold finish
  apply reads_peek_nil
  rintro rest rfl
  exact reads_pure _ ()

theorem takeWhile_append_cons {p : Char → Bool} {name rest : List Char} {c : Char}
    (hname : ∀ d ∈ name, p d) (hc : ¬ p c) : (name ++ c :: rest).takeWhile p = name := by
  rw [List.takeWhile_append_of_pos hname]
  simp [hc]

theorem span_append_cons {p : Char → Bool} {name rest : List Char} {c : Char}
    (hname : ∀ d ∈ name, p d) (hc : ¬ p c) :
    (name ++ c :: rest).span p = (name, c :: rest) := by
  rw [List.span_eq_takeWhile_dropWhile, takeWhile_append_cons hname hc,
    List.dropWhile_append_of_pos hname]
  simp [hc]

theorem reads_get {ahead : List Char → Prop} {f : Scanner → Scan α} {g : List Char → Scan α}
    {a : α} {cost : Nat} {text : List Char} {found : List ClassId}
    (hf : ∀ s rest, ahead rest → s.rest = text ++ rest → f s = g rest)
    (hg : ∀ rest, ahead rest → Reads (· = rest) (g rest) a cost text found) :
    Reads ahead (get >>= f) a cost text found := by
  intro s rest hrest hs hsteps
  obtain ⟨t, ht⟩ := hg rest hrest s rest rfl hs hsteps
  refine ⟨t, ?_, ht.2⟩
  change f s s = _
  rw [hf s rest hrest hs]
  exact ht.1

theorem reads_pass (name rest : List Char) : Reads (· = rest) (pass name rest) () 0 name [] := by
  rintro s tail rfl hs hsteps
  exact ⟨_, rfl, rfl, by simp, by simp⟩

theorem reads_either_left {ahead : List Char → Prop} {first second : Scan Bool} {cost : Nat}
    {text : List Char} {found : List ClassId} (h : Reads ahead first true cost text found) :
    Reads ahead (either first second) true cost text found := by
  unfold either
  exact Reads.finally (f := fun b => if b then pure true else second) h (reads_pure ahead true)

/-- The first of two productions does not read, and what the second does counts. -/
theorem reads_either_right {ahead behind : List Char → Prop} {first second : Scan Bool} {b : Bool}
    {cost : Nat} {text : List Char} {found : List ClassId}
    (hfirst : Reads behind first false 0 [] []) (h : Reads ahead second b cost text found)
    (hbehind : ∀ rest, ahead rest → behind (text ++ rest)) :
    Reads ahead (either first second) b cost text found := by
  unfold either
  have := Reads.bind (f := fun b => if b then pure true else second) hfirst h hbehind
  simpa using this

/-- A repetition reads its items one after another, as long as it has rounds for them. Each
item costs one step more than its own. -/
theorem reads_repeatedFor {ahead suitable : List Char → Prop} {production : Scan Bool}
    (hstop : Reads ahead production false 0 [] []) (hsuitable : ∀ rest, ahead rest → suitable rest)
    {ι : Type} (cost : ι → Nat) (text : ι → List Char) (found : ι → List ClassId) (items : List ι)
    (hreads : ∀ i ∈ items, Reads suitable production true (cost i) (text i) (found i))
    (hstarts : ∀ i ∈ items, ∀ rest, suitable (text i ++ rest)) (rounds : Nat)
    (hrounds : items.length < rounds) :
    Reads ahead (repeatedFor production rounds) () (items.map fun i => cost i + 1).sum
      (items.flatMap text) (items.flatMap found) := by
  induction items generalizing rounds with
  | nil =>
    cases rounds with
    | zero => simp at hrounds
    | succ rounds =>
      exact Reads.finally (f := fun b => if b then do tick; repeatedFor production rounds
        else pure ()) hstop (reads_pure ahead ())
  | cons i items ih =>
    cases rounds with
    | zero => simp at hrounds
    | succ rounds =>
      have hrest := ih (fun j hj => hreads j (by simp [hj])) (fun j hj => hstarts j (by simp [hj]))
        rounds (by simpa using hrounds)
      have htick := Reads.andThen (f := fun _ => repeatedFor production rounds)
        (reads_tick Anything) hrest
      have h := Reads.bind (f := fun b => if b then do tick; repeatedFor production rounds
        else pure ()) (hreads i (by simp)) htick ?_
      · simp only [repeatedFor, List.flatMap_cons, List.map_cons, List.sum_cons, Nat.add_assoc]
        simpa using h
      · intro rest hahead
        cases items with
        | nil => simpa using hsuitable rest hahead
        | cons j items =>
          rw [List.nil_append, List.flatMap_cons, List.append_assoc]
          exact hstarts j (by simp) _

/-- An item of a repetition: a text that a production reads in fewer steps than bytes,
provided that the text is followed by something suitable. -/
structure Item (suitable : List Char → Prop) (production : Scan Bool) (text : List Char)
    (found : List ClassId) : Prop where
  reads : Reads suitable production true (bytes text - 1) text found
  nonempty : text ≠ []
  starts (rest : List Char) : suitable (text ++ rest)

theorem reads_repeated {ahead suitable : List Char → Prop} {production : Scan Bool}
    (hstop : Reads ahead production false 0 [] []) (hsuitable : ∀ rest, ahead rest → suitable rest)
    {ι : Type} (text : ι → List Char) (found : ι → List ClassId) (items : List ι)
    (hitems : ∀ i ∈ items, Item suitable production (text i) (found i)) :
    Reads ahead (repeated production) () (bytes (items.flatMap text)) (items.flatMap text)
      (items.flatMap found) := by
  have hcost : (items.map fun i => bytes (text i) - 1 + 1).sum = bytes (items.flatMap text) := by
    induction items with
    | nil => rfl
    | cons i items ih =>
      have hbytes := one_le_bytes (hitems i (by simp)).nonempty
      rw [List.map_cons, List.sum_cons, ih fun j hj => hitems j (by simp [hj]), List.flatMap_cons,
        bytes_append]
      omega
  have hlength : items.length ≤ (items.map fun i => bytes (text i) - 1 + 1).sum := by
    clear hitems hcost
    induction items with
    | nil => simp
    | cons i items ih =>
      rw [List.map_cons, List.sum_cons, List.length_cons]
      omega
  intro s rest hrest hs hsteps
  rw [hcost] at hlength
  have h := reads_repeatedFor hstop hsuitable (fun i => bytes (text i) - 1) text found items
    (fun i hi => (hitems i hi).reads) (fun i hi => (hitems i hi).starts) (maxSteps + 1) (by omega)
  rw [hcost] at h
  exact h s rest hrest hs hsteps

end ClassAtlas.Signature
