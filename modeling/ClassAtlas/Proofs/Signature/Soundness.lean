import Mathlib.Data.List.TakeDrop
import Mathlib.Data.List.TakeWhile
import ClassAtlas.Proofs.Signature.Gaps

/-!
# What the signature parser accepts

`Consumes p chars R` says that whenever `p` ends well with `chars` ahead of it, the characters
that it has passed over are related to its answer by `R`. A production that finds something has
passed over a text that its symbol derives, and one that finds nothing has not moved. Several
productions go on when a part of them finds nothing, so the parser accepts texts with gaps, and
no others.
-/

namespace ClassAtlas.Signature

open Scan

variable {α β : Type}

def Consumes (p : Scan α) (chars : List Char) (R : List Char → α → Prop) : Prop :=
  ∀ s a t, s.rest = chars → p s = .ok a t → ∃ used, chars = used ++ t.rest ∧ R used a

/-- What a production finds satisfies `P`. When it finds nothing, nothing is passed over. -/
def Finds (p : Scan Bool) (P : List Char → Prop) : Prop :=
  ∀ chars, Consumes p chars fun used found => if found then P used else used = []

theorem bind_eq_ok {p : Scan α} {f : α → Scan β} {s t : Scanner} {b : β}
    (h : (p >>= f) s = .ok b t) : ∃ a middle, p s = .ok a middle ∧ f a middle = .ok b t := by
  change EStateM.bind p f s = _ at h
  unfold EStateM.bind at h
  split at h
  · next a middle ha => exact ⟨a, middle, ha, h⟩
  · cases h

namespace Consumes

variable {chars : List Char} {R S : List Char → α → Prop}

theorem mono {p : Scan α} (h : Consumes p chars R) (hRS : ∀ used a, R used a → S used a) :
    Consumes p chars S := by
  intro s a t hs hp
  obtain ⟨used, hused, hR⟩ := h s a t hs hp
  exact ⟨used, hused, hRS used a hR⟩

theorem pure {a : α} (h : R [] a) : Consumes (Pure.pure a) chars R := by
  intro s b t hs hp
  cases hp
  exact ⟨[], hs.symm, h⟩

theorem fail (fault : SignatureFault) : Consumes (Scan.fail fault : Scan α) chars R := by
  intro s a t _ hp
  cases hp

theorem bind {p : Scan α} {f : α → Scan β} {T : List Char → β → Prop} (hp : Consumes p chars R)
    (hf : ∀ used a later, chars = used ++ later → R used a →
      Consumes (f a) later fun more b => T (used ++ more) b) :
    Consumes (p >>= f) chars T := by
  intro s b t hs h
  obtain ⟨a, middle, ha, hb⟩ := bind_eq_ok h
  obtain ⟨used, hused, hR⟩ := hp s a middle hs ha
  obtain ⟨more, hmore, hT⟩ := hf used a middle.rest hused hR middle b t rfl hb
  exact ⟨used ++ more, by rw [List.append_assoc, ← hmore, hused], hT⟩

theorem get {f : Scanner → Scan α} (h : ∀ s, s.rest = chars → Consumes (f s) chars R) :
    Consumes (MonadState.get >>= f) chars R := by
  intro s a t hs hp
  exact h s hs s a t hs hp

theorem peek {f : Option Char → Scan α} (h : Consumes (f chars.head?) chars R) :
    Consumes (Scan.peek >>= f) chars R := by
  intro s a t hs hp
  subst hs
  exact h s a t rfl hp

theorem bump {c : Char} {rest : List Char} {f : Unit → Scan α}
    (h : Consumes (f ()) rest fun more a => R (c :: more) a) :
    Consumes (Scan.bump >>= f) (c :: rest) R := by
  intro s a t hs hp
  obtain ⟨_, middle, hbump, hf⟩ := bind_eq_ok hp
  have hmiddle : middle.rest = rest := by
    cases hbump
    simp [hs]
  obtain ⟨more, hmore, hR⟩ := h middle a t hmiddle hf
  exact ⟨c :: more, by rw [hmore, List.cons_append], hR⟩

theorem pass {passed rest : List Char} {f : Unit → Scan α}
    (h : Consumes (f ()) rest fun more a => R (passed ++ more) a) :
    Consumes (Scan.pass passed rest >>= f) (passed ++ rest) R := by
  intro s a t hs hp
  obtain ⟨_, middle, hpass, hf⟩ := bind_eq_ok hp
  have hmiddle : middle.rest = rest := by
    cases hpass
    rfl
  obtain ⟨more, hmore, hR⟩ := h middle a t hmiddle hf
  exact ⟨passed ++ more, by rw [List.append_assoc, ← hmore], hR⟩

theorem passFront {front : List Char} {f : Unit → Scan α} (hfront : front <+: chars)
    (h : Consumes (f ()) (chars.drop front.length) fun more a => R (front ++ more) a) :
    Consumes (Scan.pass front (chars.drop front.length) >>= f) chars R := by
  obtain ⟨rest, rfl⟩ := hfront
  rw [List.drop_left] at h ⊢
  exact pass h

theorem tick {f : Unit → Scan α} (h : Consumes (f ()) chars R) :
    Consumes (Scan.tick >>= f) chars R := by
  intro s a t hs hp
  obtain ⟨_, middle, htick, hf⟩ := bind_eq_ok hp
  refine h middle a t ?_ hf
  obtain ⟨_, _, hmodify, hcheck⟩ := bind_eq_ok htick
  cases hmodify
  change (if maxSteps < s.steps + 1 then Scan.fail .tooManyElements else Pure.pure () : Scan Unit)
    { s with steps := s.steps + 1 } = .ok () middle at hcheck
  split at hcheck
  · cases hcheck
  · cases hcheck
    exact hs

theorem submit {id : ClassId} {f : Unit → Scan α} (h : Consumes (f ()) chars R) :
    Consumes (Scan.submit id >>= f) chars R := by
  intro s a t hs hp
  obtain ⟨_, middle, hsubmit, hf⟩ := bind_eq_ok hp
  refine h middle a t ?_ hf
  cases hsubmit
  exact hs

theorem accept {c : Char} {f : Bool → Scan α}
    (htrue : ∀ rest, chars = c :: rest → Consumes (f true) rest fun more a => R (c :: more) a)
    (hfalse : chars.head? ≠ some c → Consumes (f false) chars R) :
    Consumes (Scan.accept c >>= f) chars R := by
  unfold Scan.accept
  rw [bind_assoc]
  apply peek
  by_cases h : chars.head? = some c
  · obtain ⟨rest, rfl⟩ := List.head?_eq_some_iff.1 h
    rw [if_pos h, bind_assoc]
    exact bump (htrue rest rfl)
  · rw [if_neg h]
    exact hfalse h

theorem expect (c : Char) : Consumes (Scan.expect c) chars fun used _ => used = [c] := by
  unfold Scan.expect
  apply peek
  by_cases hhead : chars.head? = some c
  · obtain ⟨rest, rfl⟩ := List.head?_eq_some_iff.1 hhead
    rw [if_pos hhead, ← bind_pure Scan.bump]
    exact bump (pure rfl)
  · rw [if_neg hhead]
    exact fail (.expected c)

theorem finish {R : List Char → Unit → Prop} (h : chars = [] → R [] ()) :
    Consumes Scan.finish chars R := by
  unfold Scan.finish
  apply peek
  cases chars with
  | nil => exact pure (h rfl)
  | cons c rest => exact fail .trailingCharacters

end Consumes

namespace Finds

variable {p q : Scan Bool} {P : List Char → Prop} {symbol : Symbol}

theorem mono {Q : List Char → Prop} (h : Finds p P) (hPQ : ∀ used, P used → Q used) :
    Finds p Q := by
  intro chars
  refine (h chars).mono fun used found hfound => ?_
  cases found with
  | false => exact hfound
  | true => exact hPQ used hfound

theorem either (hp : Finds p P) (hq : Finds q P) : Finds (Scan.either p q) P := by
  intro chars
  refine (hp chars).bind fun used found later _ hfound => ?_
  cases found with
  | true => exact Consumes.pure (by simpa using hfound)
  | false =>
    obtain rfl : used = [] := hfound
    exact hq later

theorem repeatedFor (h : Finds p (Loose symbol)) (rounds : Nat) (chars : List Char) :
    Consumes (Scan.repeatedFor p rounds) chars fun used _ => Loose (.many symbol) used := by
  induction rounds generalizing chars with
  | zero => exact .fail .tooManyElements
  | succ rounds ih =>
    refine (h chars).bind fun used found later _ hfound => ?_
    cases found with
    | false =>
      obtain rfl : used = [] := hfound
      exact Consumes.pure (.none symbol)
    | true => exact Consumes.tick ((ih later).mono fun more _ hmore => .cons hfound hmore)

theorem repeated (h : Finds p (Loose symbol)) (chars : List Char) :
    Consumes (Scan.repeated p) chars fun used _ => Loose (.many symbol) used :=
  h.repeatedFor (maxSteps + 1) chars

/-- Going on whether or not something was found leaves a gap where it was not. -/
theorem orGap (h : Finds p (Loose symbol)) (gap : Gap) (chars : List Char) :
    Consumes p chars fun used _ => Loose (.orGap symbol gap) used := by
  refine (h chars).mono fun used found hfound => ?_
  cases found with
  | true => exact .present gap hfound
  | false =>
    obtain rfl : used = [] := hfound
    exact .missing symbol trivial

end Finds

/-! ### Types -/

theorem exists_of_span {accepts : Char → Bool} {chars name rest : List Char}
    (h : chars.span accepts = (name, rest)) :
    chars = name ++ rest ∧ (∀ c ∈ name, accepts c = true) ∧
      ∀ c tail, rest = c :: tail → accepts c = false := by
  rw [List.span_eq_takeWhile_dropWhile] at h
  obtain ⟨rfl, rfl⟩ := Prod.mk.inj h
  refine ⟨List.takeWhile_append_dropWhile.symm, fun c hc => List.mem_takeWhile_imp hc, ?_⟩
  intro c tail hdrop
  have hnot := List.head?_dropWhile_not accepts chars
  rw [hdrop] at hnot
  simpa using hnot

theorem finds_typeVariable : Finds typeVariable (Loose .typeVariable) := by
  intro chars
  unfold typeVariable
  apply Consumes.peek
  by_cases hhead : chars.head? = some 'T'
  · rw [if_neg (by simpa using hhead)]
    apply Consumes.get
    intro s hs
    rw [hs]
    rcases hspan : chars.span (· != ';') with ⟨name, _ | ⟨c, rest⟩⟩
    · exact .fail .unterminatedVariable
    · obtain ⟨hchars, hname, hends⟩ := exists_of_span hspan
      obtain rfl : c = ';' := by simpa using hends c rest rfl
      -- The name is looked for from the `T` on, which is its first character therefore.
      cases name with
      | nil => simp [hchars] at hhead
      | cons first name =>
        obtain rfl : first = 'T' := by simpa [hchars] using hhead
        have hpass : chars = ('T' :: name ++ [';']) ++ rest := by simp [hchars]
        rw [hpass]
        refine Consumes.pass (Consumes.pure ?_)
        rw [List.append_nil]
        refine .typeVariable (.improper trivial fun c hc => ?_)
        simpa using hname c (List.mem_cons_of_mem _ hc)
  · rw [if_pos (by simpa using hhead)]
    exact Consumes.pure rfl

theorem finds_typeOf {field : Scan Bool} (hfield : Finds field (Loose .referenceType)) :
    Finds (typeOf field) (Loose .javaType) := by
  intro chars
  unfold typeOf
  apply Consumes.peek
  cases chars with
  | nil => exact Consumes.pure rfl
  | cons c rest =>
    dsimp only [List.head?_cons]
    by_cases hprimitive : (Primitive.ofLetter? c).isSome
    · obtain ⟨type, htype⟩ := Option.isSome_iff_exists.1 hprimitive
      rw [if_pos hprimitive]
      refine Consumes.bump (Consumes.pure ?_)
      rw [← Primitive.letter_of_ofLetter? htype]
      exact .primitive type
    · rw [if_neg hprimitive]
      exact (hfield.mono fun _ h => .reference h) (c :: rest)

theorem finds_typeArgument {field : Scan Bool} (hfield : Finds field (Loose .referenceType)) :
    Finds (typeArgument field) (Loose .argument) := by
  have hbound (direction : Wildcard) (rest : List Char) :
      Consumes (do Scan.bump; let _ ← field; return true) (direction.sign :: rest)
        fun used found => if found then Loose .argument used else used = [] := by
    refine Consumes.bump ((hfield.orGap .wildcardBound rest).bind
      fun bound _ _ _ h => Consumes.pure ?_)
    rw [List.append_nil]
    exact .wildcard direction h
  intro chars
  unfold typeArgument
  apply Consumes.peek
  cases chars with
  | nil => exact Consumes.pure rfl
  | cons c rest =>
    dsimp only [List.head?_cons]
    split
    · contradiction
    · next h =>
      obtain rfl := Option.some.inj h
      exact Consumes.bump (Consumes.pure .anyArgument)
    · next h =>
      obtain rfl := Option.some.inj h
      exact hbound .subtypes rest
    · next h =>
      obtain rfl := Option.some.inj h
      exact hbound .supertypes rest
    · exact (hfield.mono fun _ h => .typeArgument h) (c :: rest)

theorem loose_packages (text name : List Char) (hname : ∀ c ∈ name, c ∉ [';', '<', '.', '/'])
    (htext : ∀ c ∈ text, c ∉ [';', '<', '.']) :
    Loose (.many .package) (name ++ text ++ ['/']) := by
  induction text generalizing name with
  | nil =>
    have hnone : Loose (.many .package) [] := .none _
    simpa using Derives.cons (.package (.improper trivial hname)) hnone
  | cons c text ih =>
    obtain ⟨hc, htext⟩ := List.forall_mem_cons.1 htext
    by_cases hslash : c = '/'
    · have h := Derives.cons (.package (.improper trivial hname)) (ih [] (by simp) htext)
      simpa [hslash] using h
    · have h := ih (name ++ [c]) (by
        intro d hd
        rcases List.mem_append.1 hd with hd | hd
        · exact hname d hd
        · obtain rfl := List.mem_singleton.1 hd
          simpa [hslash] using hc) htext
      simpa using h

theorem take_sub_takeWhile_reverse (accepts : Char → Bool) (name : List Char) :
    name.take (name.length - (name.reverse.takeWhile accepts).length) =
      (name.reverse.dropWhile accepts).reverse := by
  have hsplit : name = (name.reverse.dropWhile accepts).reverse ++
      (name.reverse.takeWhile accepts).reverse := by
    rw [← List.reverse_append, List.takeWhile_append_dropWhile, List.reverse_reverse]
  have hlength := congrArg List.length hsplit
  rw [List.length_append, List.length_reverse, List.length_reverse] at hlength
  conv_lhs => arg 2; rw [hsplit]
  exact List.take_left' (by rw [List.length_reverse]; omega)

theorem loose_upToSlash {name : List Char} (hplain : ∀ c ∈ name, c ∉ [';', '<', '.']) :
    Loose (.many .package) (name.reverse.dropWhile (· != '/')).reverse := by
  rcases hslash : name.reverse.dropWhile (· != '/') with _ | ⟨c, before⟩
  · exact .none _
  · obtain rfl : c = '/' := by
      have hnot := List.head?_dropWhile_not (· != '/') name.reverse
      rw [hslash] at hnot
      simpa using hnot
    rw [List.reverse_cons]
    refine loose_packages before.reverse [] (by simp) fun c hc => hplain c ?_
    have hsuffix : '/' :: before <:+ name.reverse := hslash ▸ List.dropWhile_suffix _
    exact List.mem_reverse.1 (hsuffix.subset (List.mem_cons_of_mem _ (List.mem_reverse.1 hc)))

theorem consumes_packages (chars : List Char) :
    Consumes packages chars fun used _ => Loose (.many .package) used := by
  unfold packages
  apply Consumes.get
  intro s hs
  rw [hs]
  dsimp only
  have hplain : ∀ c ∈ chars.takeWhile (!endsName ·), c ∉ [';', '<', '.'] := by
    intro c hc
    simpa [endsName, and_assoc] using List.mem_takeWhile_imp hc
  have hloose := loose_upToSlash hplain
  rw [← take_sub_takeWhile_reverse] at hloose
  apply Consumes.passFront ((List.take_prefix _ _).trans (List.takeWhile_prefix _))
  apply Consumes.pure
  rwa [List.append_nil]

/-! The parser of what stands one level down is part of what a type is made up of. -/

section Levels

variable {inner : Option (Scan Bool)}
  (hinner : ∀ field, inner = some field → Finds field (Loose .referenceType))

theorem Consumes.entered {f : Scan Bool → Scan α} {chars : List Char} {R : List Char → α → Prop}
    (h : ∀ field, inner = some field → Consumes (f field) chars R) :
    Consumes (Signature.entered inner >>= f) chars R := by
  cases inner with
  | none =>
    intro s a t _ hp
    cases hp
  | some field => exact h field rfl

include hinner

theorem finds_arrayType : Finds (arrayType inner) (Loose .referenceType) := by
  intro chars
  unfold arrayType
  refine Consumes.accept (fun rest _ => ?_) fun _ => Consumes.pure rfl
  apply Consumes.entered
  intro field hfield
  refine ((finds_typeOf (hinner field hfield)).orGap .elementType rest).bind
    fun element _ _ _ helement => Consumes.pure ?_
  rw [List.append_nil]
  exact .array helement

theorem consumes_typeArguments (chars : List Char) :
    Consumes (typeArguments inner) chars fun used _ => Loose .arguments used := by
  unfold typeArguments
  refine Consumes.accept (fun rest _ => ?_) fun _ => Consumes.pure .noArguments
  apply Consumes.entered
  intro field hfield
  refine ((finds_typeArgument (hinner field hfield)).repeated rest).bind
    fun arguments _ later _ h => (Consumes.expect '>').mono ?_
  rintro _ _ rfl
  exact .arguments (h.orGap_of_many trivial)

/-- The simple classes of a class type, up to its end. -/
theorem consumes_simpleClasses (rounds : Nat) (outer : String) (chars : List Char) :
    Consumes (simpleClasses inner rounds outer) chars fun used _ =>
      ∃ first nested, used = first ++ nested ++ [';'] ∧ Loose .simpleClass first ∧
        Loose (.many .suffix) nested := by
  induction rounds generalizing outer chars with
  | zero => exact .fail .tooManyElements
  | succ rounds ih =>
    unfold simpleClasses
    -- What stands behind a dot is read by the next round: its first class is a suffix here.
    apply Consumes.tick
    apply Consumes.get
    intro s hs
    rw [hs]
    rcases hspan : chars.span (!endsName ·) with ⟨name, rest⟩
    obtain ⟨hchars, hname, -⟩ := exists_of_span hspan
    have hnamed : Named (fun _ => True) [';', '<', '.'] name :=
      .improper trivial fun c hc => by simpa [endsName, and_assoc] using hname c hc
    dsimp only
    split
    · exact .fail _
    · apply Consumes.submit
      rw [hchars]
      apply Consumes.pass
      refine (consumes_typeArguments hinner rest).bind fun arguments _ later _ harguments => ?_
      have hfirst : Loose .simpleClass (name ++ arguments) := .simpleClass hnamed harguments
      refine Consumes.accept (fun behind _ => ?_) fun _ => ?_
      · refine (ih _ behind).mono ?_
        rintro _ _ ⟨next, nested, rfl, hnext, hnested⟩
        exact ⟨name ++ arguments, '.' :: next ++ nested, by simp, hfirst,
          .cons (.suffix hnext) hnested⟩
      · refine (Consumes.expect ';').mono ?_
        rintro _ _ rfl
        exact ⟨name ++ arguments, [], by simp, hfirst, .none _⟩

theorem finds_classType : Finds (classType inner) (Loose .classType) := by
  intro chars
  unfold classType
  refine Consumes.accept (fun rest _ => ?_) fun _ => Consumes.pure rfl
  refine (consumes_packages rest).bind fun packages outer later _ hpackages => ?_
  refine (consumes_simpleClasses hinner (maxSteps + 1) outer later).bind ?_
  rintro _ _ _ _ ⟨first, nested, rfl, hfirst, hnested⟩
  apply Consumes.pure
  have h := Derives.classType hpackages hfirst hnested
  simpa using h

theorem finds_fieldTypeIn : Finds (fieldTypeIn inner) (Loose .referenceType) := by
  have hclass := (finds_classType hinner).mono fun _ h => Derives.ofClass h
  have hvariable := finds_typeVariable.mono fun _ h => Derives.ofVariable h
  exact hclass.either ((finds_arrayType hinner).either hvariable)

end Levels

theorem finds_fieldTypeOf (levels : Nat) :
    Finds (fieldTypeOf levels) (Loose .referenceType) := by
  induction levels with
  | zero => exact finds_fieldTypeIn fun _ h => nomatch h
  | succ levels ih =>
    apply finds_fieldTypeIn
    intro field h
    obtain rfl := Option.some.inj h
    exact ih

theorem finds_belowTop : ∀ field, belowTop = some field → Finds field (Loose .referenceType) := by
  intro field h
  obtain rfl := Option.some.inj h
  exact finds_fieldTypeOf _

theorem finds_topClassType : Finds topClassType (Loose .classType) :=
  finds_classType finds_belowTop

theorem finds_fieldType : Finds fieldType (Loose .referenceType) :=
  finds_fieldTypeIn finds_belowTop

theorem finds_type : Finds type (Loose .javaType) :=
  finds_typeOf finds_fieldType

/-! ### Type parameters -/

theorem consumes_bound (chars : List Char) : Consumes bound chars fun used found =>
    if found then ∃ text, used = ':' :: text ∧ (text = [] ∨ Loose .referenceType text)
    else used = [] ∧ chars.head? ≠ some ':' := by
  unfold bound
  refine Consumes.accept (fun rest _ => ?_) fun h => Consumes.pure ⟨rfl, h⟩
  refine (finds_fieldType rest).bind fun text found _ _ hfound => Consumes.pure ?_
  cases found with
  | true => exact ⟨text, by simp, .inr hfound⟩
  | false => exact ⟨text, by simp, .inl hfound⟩

theorem consumes_classBound (rest : List Char) :
    Consumes bound (':' :: rest) fun used _ => Loose .classBound used := by
  refine (consumes_bound (':' :: rest)).mono fun used found hfound => ?_
  cases found with
  | false => exact absurd rfl hfound.2
  | true =>
    obtain ⟨text, rfl, rfl | htext⟩ := hfound
    · exact .noClassBound
    · exact .classBound htext

theorem finds_interfaceBound : Finds bound (Loose .interfaceBound) := by
  intro chars
  refine (consumes_bound chars).mono fun used found hfound => ?_
  cases found with
  | false => exact hfound.1
  | true =>
    obtain ⟨text, rfl, rfl | htext⟩ := hfound
    · exact .interfaceBound (.missing _ trivial)
    · exact .interfaceBound (.present _ htext)

theorem finds_typeParameter : Finds typeParameter (Loose .parameter) := by
  intro chars
  unfold typeParameter
  apply Consumes.peek
  cases chars with
  | nil => exact Consumes.pure rfl
  | cons c rest =>
    dsimp only [List.head?_cons]
    split
    · contradiction
    · exact Consumes.pure rfl
    · apply Consumes.get
      intro s hs
      rw [hs]
      rcases hspan : (c :: rest).span (· != ':') with ⟨name, _ | ⟨colon, behind⟩⟩
      · exact .fail .missingBound
      · obtain ⟨hchars, hname, hends⟩ := exists_of_span hspan
        obtain rfl : colon = ':' := by simpa using hends colon behind rfl
        have hnamed : Named (fun _ => True) [':'] name :=
          .improper trivial fun d hd => by simpa using hname d hd
        rw [hchars]
        apply Consumes.pass
        refine (consumes_classBound behind).bind fun bound _ later _ hbound => ?_
        refine (finds_interfaceBound.repeated later).bind fun interfaces _ _ _ hinterfaces =>
          Consumes.pure ?_
        have h := Derives.parameter hnamed hbound hinterfaces
        simpa using h

theorem consumes_typeParameters (chars : List Char) :
    Consumes typeParameters chars fun used _ => Loose .parameters used := by
  unfold typeParameters
  refine Consumes.accept (fun rest _ => ?_) fun _ => Consumes.pure .noParameters
  refine (finds_typeParameter.repeated rest).bind fun parameters _ later _ h =>
    (Consumes.expect '>').mono ?_
  rintro _ _ rfl
  exact .parameters (h.orGap_of_many trivial)

/-! ### Signatures -/

theorem consumes_returnType (chars : List Char) :
    Consumes returnType chars fun used _ => Loose (.orGap .result .result) used := by
  unfold returnType
  refine Consumes.accept (fun rest _ => Consumes.pure (.present _ .void)) fun _ => ?_
  refine ((finds_type.mono fun _ h => .result h).orGap .result chars).bind
    fun result _ _ _ h => Consumes.pure ?_
  rwa [List.append_nil]

theorem finds_thrown : Finds thrown (Loose .throws) := by
  have htype : Finds (either typeVariable topClassType) (Loose .thrownType) :=
    (finds_typeVariable.mono fun _ h => .thrownVariable h).either
      (finds_topClassType.mono fun _ h => .thrownClass h)
  intro chars
  unfold thrown
  refine Consumes.accept (fun rest _ => ?_) fun _ => Consumes.pure rfl
  refine (htype.orGap .thrownType rest).bind fun text _ _ _ h => Consumes.pure ?_
  rw [List.append_nil]
  exact .throws h

theorem consumes_classSignature (chars : List Char) :
    Consumes classSignature chars fun used _ => Loose (.signature .ofClass) used := by
  unfold classSignature
  refine (consumes_typeParameters chars).bind fun parameters _ later _ hparameters => ?_
  refine (finds_topClassType.orGap .superclass later).bind fun superclass _ rest _ hsuper => ?_
  refine (finds_topClassType.repeated rest).mono fun interfaces _ hinterfaces => ?_
  rw [← List.append_assoc]
  exact .classSignature hparameters hsuper hinterfaces

theorem consumes_methodSignature (chars : List Char) :
    Consumes methodSignature chars fun used _ => Loose (.signature .ofMethod) used := by
  unfold methodSignature
  refine (consumes_typeParameters chars).bind fun parameters _ _ _ hparameters => ?_
  refine (Consumes.expect '(').bind ?_
  rintro _ _ later _ rfl
  refine (finds_type.repeated later).bind fun arguments _ _ _ harguments => ?_
  refine (Consumes.expect ')').bind ?_
  rintro _ _ later _ rfl
  refine (consumes_returnType later).bind fun result _ rest _ hresult => ?_
  refine (finds_thrown.repeated rest).mono fun throws _ hthrows => ?_
  have h := Derives.methodSignature hparameters harguments hresult hthrows
  simpa using h

theorem consumes_finish {body : Scan α} {kind : SignatureKind}
    (hbody : ∀ chars, Consumes body chars fun used _ => Loose (.signature kind) used)
    (chars : List Char) :
    Consumes (do let _ ← body; finish) chars fun _ _ => Loose (.signature kind) chars := by
  refine (hbody chars).bind fun used _ later hchars hused => Consumes.finish ?_
  rintro rfl
  rwa [hchars, List.append_nil]

/-- A signature that is read to its end is derived as a whole. -/
theorem consumes_production (kind : SignatureKind) (chars : List Char) :
    Consumes (production kind) chars fun _ _ => Loose (.signature kind) chars := by
  cases kind with
  | ofClass => exact consumes_finish consumes_classSignature chars
  | ofField =>
    exact consumes_finish (fun chars => (finds_fieldType.orGap .wholeType chars).mono
      fun _ _ h => .fieldSignature h) chars
  | ofMethod => exact consumes_finish consumes_methodSignature chars
  | ofType =>
    exact consumes_finish (fun chars => (finds_type.orGap .wholeType chars).mono
      fun _ _ h => .typeSignature h) chars

/-- A text that is parsed without an error is derived, though parts of it may be missing. -/
theorem loose_of_parse (kind : SignatureKind) (text : String)
    (h : (parse kind text).error = none) : Loose (.signature kind) text.toList := by
  unfold parse at h
  cases hrun : (production kind).run { rest := text.toList } with
  | error stop s => simp [hrun] at h
  | ok a s =>
    obtain ⟨_, -, hloose⟩ := consumes_production kind text.toList _ a s rfl hrun
    exact hloose

/-- A method that has no result, and whose argument is an array without an element type. -/
theorem loose_of_parse_array :
    (parse .ofMethod "([)").error = none ∧ Loose (.signature .ofMethod) "([)".toList :=
  ⟨rfl, loose_of_parse .ofMethod "([)" rfl⟩

example : [(.ofClass, ""), (.ofClass, "<>"), (.ofField, ""), (.ofField, "["), (.ofField, "T<;"),
    (.ofField, "LA<>;"), (.ofField, "LA<+>;"), (.ofMethod, "<T::>()V"), (.ofMethod, "()"),
    (.ofMethod, "()V^"), (.ofType, "")].all
      fun (kind, text) => (parse kind text).error.isNone := by
  decide +kernel

/-! ### Gaps that are not noticed -/

theorem Derives.ne_nil {may : Gap → Prop} {text : List Char} (h : Derives may .javaType text) :
    text ≠ [] := by
  cases h with
  | primitive type => simp
  | reference h =>
    cases h with
    | ofClass h => cases h; simp
    | ofVariable h => cases h; simp
    | array h => simp

/-- A method signature without gaps has a result behind its parentheses. -/
theorem three_le_length_of_strict {text : List Char} (h : Strict (.signature .ofMethod) text) :
    3 ≤ text.length := by
  cases h with
  | @methodSignature _ _ result _ _ _ hresult _ =>
    have hne : result ≠ [] := by
      cases hresult with
      | missing _ h => exact h.elim
      | present _ h =>
        cases h with
        | void => simp
        | result h => exact h.ne_nil
    have hpos := List.length_pos_iff.2 hne
    simp only [List.length_append, List.length_cons]
    omega

/-- A method without a result is parsed without an error. -/
theorem not_strict_of_parse :
    ¬ ∀ kind text, (parse kind text).error = none → Strict (.signature kind) text.toList := by
  intro h
  have hparse : (parse .ofMethod "()").error = none := rfl
  have hlength := three_le_length_of_strict (h .ofMethod "()" hparse)
  exact absurd hlength (by decide)

end ClassAtlas.Signature
