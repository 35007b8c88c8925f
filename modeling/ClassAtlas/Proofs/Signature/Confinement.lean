import ClassAtlas.Proofs.Decoder.Answers
import ClassAtlas.Proofs.Signature.Simulation
import ClassAtlas.Proofs.Text.Groups
import ClassAtlas.Submission

/-!
# Reading signatures keeps within bounds

Every reading of a signature comes to an end. On its way it stays on the text, nests its calls
no deeper than types may be nested in types, and counts no more steps than it passes over bytes.
So it always stops between two characters, and only a text that is longer than the bound on
steps can have too many elements, which no text in a constant pool is.
-/

namespace ClassAtlas.Signature

open Scan

/-! ### Moments -/

/-- A moment within the bounds for a text. -/
structure Confined (text : String) (m : Moment) : Prop where
  exists_passed : ∃ passed, text.toList = passed ++ m.rest ∧ m.position = bytes passed
  isValid : String.Pos.Raw.IsValid text ⟨m.position⟩
  steps_le : m.steps ≤ m.position
  depth_nonneg : 0 ≤ m.depth
  /-- One level too many is the end. -/
  depth_le_succ : m.depth ≤ maxLevels + 1
  depth_le (hrun : m.stop? = none) : m.depth ≤ maxLevels
  /-- The levels are those that the tasks ahead leave again. -/
  depth_eq (hrun : m.stop? = none) : m.depth = m.tasks.count .leave
  length_tasks_le : (m.tasks.length : Int) ≤ 18 + 8 * m.depth

theorem isValid_bytes {text : String} {passed rest : List Char}
    (h : text.toList = passed ++ rest) : String.Pos.Raw.IsValid text ⟨bytes passed⟩ := by
  refine String.Pos.Raw.isValid_iff_exists_append.2
    ⟨String.ofList passed, String.ofList rest, ?_, ?_⟩
  · rw [← String.ofList_append, ← h, String.ofList_toList]
  · rw [bytes_eq_utf8ByteSize]
    rfl

theorem confined_momentAfter (steps : Nat) (kind : SignatureKind) (text : String) :
    Confined text (momentAfter steps kind text) := by
  obtain ⟨ticks, hpasses⟩ := exists_passes_start steps kind text
  obtain ⟨passed, hrest, hposition, -⟩ := hpasses.exists_passed
  have hposition : (momentAfter steps kind text).position = bytes passed :=
    hposition.trans (Nat.zero_add _)
  have hlevelled := levelled_momentAfter steps kind text
  have hlength := (stacked_momentAfter steps kind text).length_le
  exact {
    exists_passed := ⟨passed, hrest, hposition⟩
    isValid := hposition ▸ isValid_bytes hrest
    steps_le := (solvent_momentAfter steps kind text).steps_le
    depth_nonneg := hlevelled.depth_nonneg
    depth_le_succ := hlevelled.depth_le_succ
    depth_le := hlevelled.depth_le
    depth_eq := hlevelled.depth_eq
    length_tasks_le := by
      rcases stop?_eq_none_or_tasks_eq_nil steps kind text with hrun | hnil
      · rw [hlevelled.depth_eq hrun]
        omega
      · rw [hnil, List.length_nil]
        have hnonneg := hlevelled.depth_nonneg
        omega }

theorem Confined.position_le {text : String} {m : Moment} (h : Confined text m) :
    m.position ≤ text.utf8ByteSize :=
  h.isValid.le_rawEndPos

/-! ### Ends -/

def Moment.outcome (m : Moment) (text : String) : Outcome where
  classes := m.found.toList
  error := m.stop?.map fun stop => .signature text stop.position stop.fault

def Outcome.deliver {σ : Type} (outcome : Outcome) (submit : ClassId → σ → σ) (sink : σ) :
    EStateM.Result Error σ Unit :=
  let sink := outcome.classes.foldl (fun sink id => submit id sink) sink
  match outcome.error with
  | none => .ok () sink
  | some e => .error e sink

theorem accept_signature {σ : Type} (submit : ClassId → σ → σ) (kind : SignatureKind)
    (text : String) (sink : σ) :
    ({ submit } : ClassSink σ).accept (.signature kind text) sink =
      (parse kind text).deliver submit sink :=
  rfl

theorem Outcome.deliver_eq_error {σ : Type} {outcome : Outcome} {submit : ClassId → σ → σ}
    {sink behind : σ} {e : Error} (h : outcome.deliver submit sink = .error e behind) :
    outcome.error = some e := by
  unfold deliver at h
  dsimp only at h
  split at h
  · cases h
  · next herror =>
    cases h
    exact herror

/-- Every reading ends, and as the parser does. -/
theorem exists_outcome_eq_parse (kind : SignatureKind) (text : String) :
    ∃ steps, (momentAfter steps kind text).tasks = [] ∧
      parse kind text = (momentAfter steps kind text).outcome text := by
  have hdoes := does_production kind { rest := text.toList } false []
  rw [List.append_nil] at hdoes
  unfold parse EStateM.run
  revert hdoes
  cases production kind { rest := text.toList } with
  | ok _ s =>
    rintro ⟨-, answer, -, steps, hend⟩
    have hend : momentAfter steps kind text = ⟨s, 0, answer, [], none⟩ := hend
    exact ⟨steps, by rw [hend], by rw [hend]; rfl⟩
  | error stop s =>
    rintro ⟨m, ⟨steps, hend⟩, rfl, htasks, hstop⟩
    have hend : momentAfter steps kind text = m := hend
    refine ⟨steps, by rw [hend, htasks], ?_⟩
    rw [hend, Moment.outcome, hstop]
    rfl

/-- The error of a reading stands between two characters, and there are too many elements in
long texts only. -/
theorem Confined.error_eq {text : String} {m : Moment} (h : Confined text m) (hfailing : Failing m)
    {e : Error} (he : (m.outcome text).error = some e) :
    ∃ position fault, e = .signature text position fault ∧
      String.Pos.Raw.IsValid text ⟨position⟩ ∧
      (fault = .tooManyElements → maxSteps < text.utf8ByteSize) := by
  obtain ⟨stop, hstop, rfl⟩ := Option.map_eq_some_iff.1 he
  refine ⟨stop.position, stop.fault, rfl, ?_, fun hfault => ?_⟩
  · rw [hfailing.position_eq hstop]
    exact h.isValid
  · exact (hfailing.lt_steps hstop hfault).trans_le (h.steps_le.trans h.position_le)

/-! ### Texts in constant pools -/

theorem answers_utf : Answers Decoder.utf fun text => text.utf8ByteSize < 65536 := by
  refine Answers.after fun length => ?_
  have hblock : Answers (Decoder.block length.toNat) fun bytes => bytes.length < 65536 := by
    intro start bytes stop h
    rw [(Decoder.split_eq_ok (d := Decoder.block length.toNat) (fun _ => rfl) h).2]
    exact length.toNat_lt
  refine hblock.bind fun bytes hbytes => ?_
  cases hdecode : Text.ModifiedUtf8.decode bytes with
  | ok text => exact .pure ((Text.ModifiedUtf8.utf8ByteSize_le_of_decode hdecode).trans_lt hbytes)
  | error index => exact .throw _ _

theorem size_le_maxSteps_of_utf {start stop : Cursor} {text : String}
    (h : Decoder.utf start = .ok text stop) : text.utf8ByteSize ≤ maxSteps :=
  (Nat.le_of_lt (answers_utf start text stop h)).trans (by decide)

/-! ### Readings -/

/-- What holds of every reading of a signature, whatever sink its classes are handed to. -/
structure KeepsBounds (kind : SignatureKind) (text : String) : Prop where
  confined (steps : Nat) : Confined text (momentAfter steps kind text)
  /-- What is ahead later on is ahead from the first. -/
  rest_suffix (steps : Nat) :
    (momentAfter (steps + 1) kind text).rest <:+ (momentAfter steps kind text).rest
  position_le (steps : Nat) :
    (momentAfter steps kind text).position ≤ (momentAfter (steps + 1) kind text).position
  /-- No task is left in the end, and the sink has got what has been found on the way. -/
  ends : ∃ steps, (momentAfter steps kind text).tasks = [] ∧
    ∀ {σ : Type} (submit : ClassId → σ → σ) (sink : σ),
      ({ submit } : ClassSink σ).accept (.signature kind text) sink =
        ((momentAfter steps kind text).outcome text).deliver submit sink
  /-- Every error stands between two characters. -/
  error {σ : Type} {submit : ClassId → σ → σ} {sink behind : σ} {e : Error}
    (he : ({ submit } : ClassSink σ).accept (.signature kind text) sink = .error e behind) :
    ∃ position fault, e = .signature text position fault ∧
      String.Pos.Raw.IsValid text ⟨position⟩ ∧
      (fault = .tooManyElements → 200000 < text.utf8ByteSize) ∧
      ((∃ start stop, Decoder.utf start = .ok text stop) → fault ≠ .tooManyElements)

theorem keepsBounds (kind : SignatureKind) (text : String) : KeepsBounds kind text := by
  obtain ⟨last, htasks, hparse⟩ := exists_outcome_eq_parse kind text
  exact {
    confined := fun steps => confined_momentAfter steps kind text
    rest_suffix := fun steps => by
      obtain ⟨_, hpasses⟩ := exists_passes_succ steps kind text
      exact hpasses.rest_suffix
    position_le := fun steps => by
      obtain ⟨_, hpasses⟩ := exists_passes_succ steps kind text
      exact hpasses.position_le
    ends := ⟨last, htasks, fun submit sink => by rw [accept_signature, hparse]⟩
    error := by
      intro σ submit sink behind e he
      rw [accept_signature, hparse] at he
      obtain ⟨position, fault, he, hvalid, hlimit⟩ :=
        (confined_momentAfter last kind text).error_eq (failing_momentAfter last kind text)
          (Outcome.deliver_eq_error he)
      refine ⟨position, fault, he, hvalid, hlimit, ?_⟩
      rintro ⟨start, stop, hutf⟩ hfault
      exact Nat.not_lt.2 (size_le_maxSteps_of_utf hutf) (hlimit hfault) }

/-- An array without an element type, behind which a character of two bytes is left. -/
theorem keepsBounds_array :
    (momentAfter 5 .ofType "[é").stop? = none ∧ (momentAfter 5 .ofType "[é").depth = 1 ∧
      (momentAfter 5 .ofType "[é").depth ≤ maxLevels ∧
      ({ submit := List.cons } : ClassSink (List ClassId)).accept (.signature .ofType "[é") [] =
        .error (.signature "[é" 1 .trailingCharacters) [] ∧
      String.Pos.Raw.IsValid "[é" ⟨1⟩ ∧
      Decoder.utf (.start [0, 3, 0x5B, 0xC3, 0xA9]) = .ok "[é" ⟨5, []⟩ ∧
      SignatureFault.trailingCharacters ≠ .tooManyElements := by
  have hrun : (momentAfter 5 .ofType "[é").stop? = none := rfl
  have herror : ({ submit := List.cons } : ClassSink (List ClassId)).accept
      (.signature .ofType "[é") [] = .error (.signature "[é" 1 .trailingCharacters) [] := rfl
  have hutf : Decoder.utf (.start [0, 3, 0x5B, 0xC3, 0xA9]) = .ok "[é" ⟨5, []⟩ := rfl
  have hbounds := keepsBounds .ofType "[é"
  obtain ⟨position, fault, he, hvalid, -, hread⟩ := hbounds.error herror
  cases he
  exact ⟨hrun, rfl, (hbounds.confined 5).depth_le hrun, herror, hvalid, hutf, hread ⟨_, _, hutf⟩⟩

end ClassAtlas.Signature
