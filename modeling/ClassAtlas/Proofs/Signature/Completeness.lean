import Mathlib.Tactic.FinCases
import ClassAtlas.Proofs.Signature.Types

/-!
# Completeness of the signature parser

Every signature of the grammar is parsed to the end, and the classes found are those that it
names, from left to right.
-/

namespace ClassAtlas.Signature

open Scan

theorem ReferenceType.item_fieldType (type : ReferenceType) (hdepth : type.depth ≤ maxLevels) :
    Item Anything fieldType type.text type.classes :=
  type.item maxLevels hdepth

theorem ClassType.item_topClassType (type : ClassType) (hdepth : type.depth ≤ maxLevels) :
    Item Anything topClassType type.text type.classes :=
  ClassType.item type maxLevels hdepth

theorem JavaType.item (type : JavaType) (hdepth : type.depth ≤ maxLevels) :
    Item Anything Signature.type type.text type.classes := by
  cases type with
  | primitive p =>
    exact ⟨(reads_typeOf_primitive _ p).weaken (Nat.zero_le _) fun _ h => h, by simp [text],
      fun _ => trivial⟩
  | reference type =>
    have h := type.item_fieldType hdepth
    exact { h with reads := reads_typeOf_reference h.reads }

theorem JavaType.head?_text (type : JavaType) (rest : List Char) :
    NotFrom 'V' (type.text ++ rest) := by
  cases type with
  | primitive p => cases p <;> simp [NotFrom, text, Primitive.letter]
  | reference type =>
    obtain ⟨c, tail, htext, hc⟩ := type.text_eq_cons
    have hne : c ≠ 'V' := by fin_cases hc <;> decide
    simpa [NotFrom, text, htext] using hne

/-! ### Type parameters -/

/-- A bound that may be empty, where what stands behind an empty one is not a type. -/
theorem reads_bound (type : Option ReferenceType)
    (hdepth : type.elim 0 ReferenceType.depth ≤ maxLevels) {ahead : List Char → Prop}
    (hahead : type = none → ∀ rest, ahead rest → NotFieldType rest) :
    Reads ahead bound true (bytes (type.elim [] ReferenceType.text))
      (':' :: type.elim [] ReferenceType.text) (type.elim [] ReferenceType.classes) := by
  have htype : ∃ b, Reads ahead fieldType b (bytes (type.elim [] ReferenceType.text))
      (type.elim [] ReferenceType.text) (type.elim [] ReferenceType.classes) := by
    cases type with
    | none => exact ⟨false, (skips_fieldTypeIn belowTop).weaken (Nat.le_refl 0) (hahead rfl)⟩
    | some type =>
      exact ⟨true, (type.item_fieldType hdepth).reads.weaken (Nat.sub_le _ 1) fun _ _ => trivial⟩
  obtain ⟨b, hb⟩ := htype
  unfold bound
  exact reads_after_accept (hb.finally (reads_pure _ true))

theorem item_bound (type : ReferenceType) (hdepth : type.depth ≤ maxLevels) :
    Item Anything bound (':' :: type.text) type.classes where
  reads := by
    have hcolon : (':').utf8Size = 1 := by decide
    exact (reads_bound (some type) hdepth (by simp)).weaken (by simp [hcolon]) fun _ h => h
  nonempty := by simp
  starts _ := trivial

theorem skips_bound : Reads (NotFrom ':') bound false 0 [] [] := by
  unfold bound
  exact (skips_accept ':').finally (reads_pure _ false)

def TypeParameter.boundsText (p : TypeParameter) : List Char :=
  ':' :: (p.classBound.elim [] ReferenceType.text ++
    p.interfaceBounds.flatMap fun bound => ':' :: bound.text)

theorem TypeParameter.text_eq (p : TypeParameter) : p.text = p.name.chars ++ p.boundsText := by
  simp [text, boundsText]

theorem TypeParameter.reads_bounds (p : TypeParameter) (hbounded : p.IsBounded)
    (hdepth : p.depth ≤ maxLevels) :
    Reads (NotFrom ':') (bound >>= fun _ => repeated bound) () (bytes p.boundsText - 1)
      p.boundsText p.classes := by
  have hdepths := Nat.max_le.1 hdepth
  have hinterfaces := reads_repeated skips_bound (anything _) (fun bound => ':' :: bound.text)
    ReferenceType.classes p.interfaceBounds fun type htype =>
      item_bound type (deepest_le.1 hdepths.2 _ (List.mem_map_of_mem htype))
  have hclass : Reads (fun rest => p.classBound = none → NotFieldType rest) bound true _ _ _ :=
    reads_bound p.classBound hdepths.1 fun hnone rest hrest => hrest hnone
  have hcolon : (':').utf8Size = 1 := by decide
  have hcost : bytes (p.classBound.elim [] ReferenceType.text) +
      bytes (p.interfaceBounds.flatMap fun bound => ':' :: bound.text) ≤
        bytes p.boundsText - 1 := by
    rw [TypeParameter.boundsText, bytes_cons, bytes_append]
    omega
  refine (hclass.bind hinterfaces ?_).weaken hcost fun _ h => h
  intro rest hrest hnone
  obtain ⟨type, types, htypes⟩ := List.exists_cons_of_ne_nil (hbounded hnone)
  rw [htypes]
  simp [NotFieldType, NotFrom]

def namedParameter : Scan Bool := do
  let s ← get
  let split := s.rest.span (· != ':')
  if split.2.isEmpty then fail .missingBound
  pass split.1 split.2
  let _ ← bound
  repeated bound
  return true

theorem reads_namedParameter (p : TypeParameter) (hbounded : p.IsBounded)
    (hdepth : p.depth ≤ maxLevels) :
    Reads (NotFrom ':') namedParameter true (bytes p.text - 1) p.text p.classes := by
  have hname : ∀ d ∈ p.name.chars, (d != ':') = true := by
    intro d hd
    simpa using p.name.ne_of_mem hd (by decide)
  have hcost : bytes p.boundsText - 1 ≤ bytes p.text - 1 := by
    rw [p.text_eq, bytes_append]
    omega
  unfold namedParameter
  refine Reads.weaken ?_ hcost fun _ h => h
  refine reads_get (g := fun rest => do
    pass p.name.chars (p.boundsText ++ rest)
    let _ ← bound
    repeated bound
    pure true) ?_ ?_
  · intro s rest _ hs
    have hsplit : s.rest.span (· != ':') = (p.name.chars, p.boundsText ++ rest) := by
      rw [hs, p.text_eq, List.append_assoc]
      exact span_append_cons hname (by decide)
    dsimp only
    rw [hsplit]
    rfl
  · intro rest hrest
    have hbounds := (p.reads_bounds hbounded hdepth).finally (f := fun _ => pure true)
      (reads_pure _ true)
    have hahead : ∀ tail, tail = rest → NotFrom ':' tail := by
      rintro _ rfl
      exact hrest
    have h := Reads.bind (f := fun _ => (bound >>= fun _ => repeated bound) >>= fun _ => pure true)
      (reads_pass p.name.chars (p.boundsText ++ rest))
      (hbounds.weaken (Nat.le_refl _) hahead) (by rintro _ rfl; rfl)
    rw [p.text_eq]
    simpa using h

theorem typeParameter_eq : typeParameter = peek >>= fun next =>
    match next with
    | none | some '>' => pure false
    | some _ => namedParameter :=
  rfl

theorem TypeParameter.item (p : TypeParameter) (hbounded : p.IsBounded)
    (hdepth : p.depth ≤ maxLevels) :
    Item (NotFrom ':') typeParameter p.text p.classes := by
  obtain ⟨c, tail, hname⟩ := List.exists_cons_of_ne_nil p.name.nonempty
  have hmem : c ∈ p.name.chars := by simp [hname]
  obtain ⟨rest, htext⟩ : ∃ rest, p.text = c :: rest := ⟨_, by rw [TypeParameter.text, hname]; rfl⟩
  have h := reads_namedParameter p hbounded hdepth
  refine ⟨?_, by simp [htext], fun rest => ?_⟩
  · rw [typeParameter_eq]
    rw [htext] at h ⊢
    apply reads_peek
    split
    · contradiction
    · next heq =>
      obtain rfl := Option.some.inj heq
      exact absurd rfl (p.name.ne_of_mem hmem (by decide))
    · exact h
  · simpa [NotFrom, htext] using p.name.ne_of_mem hmem (by decide)

theorem skips_typeParameter : Reads (From '>') typeParameter false 0 [] [] := by
  rw [typeParameter_eq]
  apply reads_peek_nil
  intro rest hrest
  rw [show rest.head? = some '>' from hrest]
  exact reads_pure _ false

theorem skips_typeParameters : Reads (NotFrom '<') typeParameters () 0 [] [] := by
  unfold typeParameters
  exact (skips_accept '<').finally (reads_pure _ ())

theorem reads_typeParameters (parameters : List TypeParameter)
    (hbounded : ∀ p ∈ parameters, p.IsBounded)
    (hdepth : ∀ p ∈ parameters, p.depth ≤ maxLevels) :
    Reads (NotFrom '<') typeParameters () (bytes (parametersText parameters))
      (parametersText parameters) (parameters.flatMap TypeParameter.classes) := by
  cases parameters with
  | nil => exact skips_typeParameters
  | cons p parameters =>
    have hrepeated := reads_repeated skips_typeParameter
      (fun rest (h : From '>' rest) => (by simp_all [From, NotFrom] : NotFrom ':' rest))
      TypeParameter.text TypeParameter.classes (p :: parameters) fun q hq =>
        q.item (hbounded q hq) (hdepth q hq)
    have hclose := hrepeated.bind (f := fun _ => expect '>') (reads_expect Anything '>')
      fun _ _ => rfl
    rw [List.append_nil] at hclose
    unfold typeParameters
    refine Reads.weaken (reads_after_accept (c := '<') hclose) ?_ (anything _)
    simp only [parametersText, List.isEmpty_cons, Bool.false_eq_true, if_false, List.cons_append,
      bytes_cons, bytes_append]
    omega

/-! ### Signatures -/

theorem skips_type : Reads (From ')') Signature.type false 0 [] [] := by
  unfold Signature.type typeOf
  apply reads_peek_nil
  intro rest hrest
  rw [show rest.head? = some ')' from hrest]
  refine (skips_fieldTypeIn belowTop).weaken (Nat.le_refl 0) fun rest hrest => ?_
  simp_all [NotFieldType, NotFrom, From]

theorem reads_returnType (result : Option JavaType)
    (hdepth : result.elim 0 JavaType.depth ≤ maxLevels) :
    Reads Anything returnType () (bytes (result.elim ['V'] JavaType.text))
      (result.elim ['V'] JavaType.text) (result.elim [] JavaType.classes) := by
  unfold returnType
  cases result with
  | none =>
    have h := reads_after_accept (c := 'V')
      (f := fun b => if !b then type >>= fun _ => pure () else pure ()) (reads_pure Anything ())
    exact h.weaken (Nat.zero_le _) fun _ h => h
  | some type =>
    have h := Reads.bind (f := fun b => if !b then Signature.type >>= fun _ => pure () else pure ())
      (skips_accept 'V') ((type.item hdepth).reads.finally (reads_pure _ ()))
      fun rest _ => type.head?_text rest
    exact h.weaken (by simp) fun _ h => h

theorem Thrown.item (t : Thrown) (hdepth : t.depth ≤ maxLevels) :
    Item Anything thrown t.text t.classes := by
  have htype : ∃ text cost, t.text = '^' :: text ∧ cost ≤ bytes text ∧
      Reads Anything (either typeVariable topClassType) true cost text t.classes := by
    cases t with
    | ofClass type =>
      have h := type.item_topClassType hdepth
      refine ⟨_, _, rfl, Nat.sub_le _ 1, reads_either_right skips_typeVariable h.reads ?_⟩
      obtain ⟨path, first, nested⟩ := type
      simp [NotFrom, ClassType.text]
    | ofVariable name =>
      exact ⟨_, _, rfl, Nat.zero_le _, reads_either_left (reads_typeVariable name)⟩
  obtain ⟨text, cost, htext, hcost, htype⟩ := htype
  have h : Reads Anything thrown true cost ('^' :: text) t.classes := by
    unfold thrown
    exact reads_after_accept (htype.finally (reads_pure _ true))
  rw [htext]
  have hcaret : ('^').utf8Size = 1 := by decide
  exact ⟨h.weaken (by rw [bytes_cons]; omega) fun _ h => h, by simp, fun _ => trivial⟩

theorem reads_classSignature (t : ClassSignature) (hbounded : ∀ p ∈ t.parameters, p.IsBounded)
    (hdepth : (Tree.ofClass t).depth ≤ maxLevels) :
    Reads (· = []) classSignature () (bytes (Tree.ofClass t).text) (Tree.ofClass t).text
      (Tree.ofClass t).classes := by
  obtain ⟨hparameters, hsuperclass, hinterfaces⟩ :
      (∀ p ∈ t.parameters, p.depth ≤ maxLevels) ∧ t.superclass.depth ≤ maxLevels ∧
        ∀ i ∈ t.interfaces, i.depth ≤ maxLevels := by
    simpa [Tree.depth, deepest_le] using hdepth
  have hstop : Reads (· = []) topClassType false 0 [] [] :=
    (skips_classType belowTop).weaken (Nat.le_refl 0) (by rintro _ rfl; simp [NotFrom])
  have hrepeated := reads_repeated hstop (anything _) ClassType.text ClassType.classes t.interfaces
    fun i hi => i.item_topClassType (hinterfaces i hi)
  have htypes := (t.superclass.item_topClassType hsuperclass).reads.andThen
    (f := fun _ => repeated topClassType) hrepeated
  have h := (reads_typeParameters t.parameters hbounded hparameters).bind
    (f := fun _ => topClassType >>= fun _ => repeated topClassType) htypes (by
      intro rest _
      obtain ⟨path, first, nested⟩ := t.superclass
      simp [NotFrom, ClassType.text])
  have hbytes : bytes (Tree.ofClass t).text = bytes (parametersText t.parameters) +
      (bytes t.superclass.text + bytes (t.interfaces.flatMap ClassType.text)) := by
    simp only [Tree.text, bytes_append]
    omega
  simp only [Tree.text, Tree.classes, List.append_assoc] at hbytes ⊢
  exact h.weaken (by omega) fun _ h => h

theorem reads_methodSignature (t : MethodSignature) (hbounded : ∀ p ∈ t.parameters, p.IsBounded)
    (hdepth : (Tree.ofMethod t).depth ≤ maxLevels) :
    Reads (· = []) methodSignature () (bytes (Tree.ofMethod t).text) (Tree.ofMethod t).text
      (Tree.ofMethod t).classes := by
  obtain ⟨hparameters, harguments, hresult, hthrows⟩ :
      (∀ p ∈ t.parameters, p.depth ≤ maxLevels) ∧ (∀ a ∈ t.arguments, a.depth ≤ maxLevels) ∧
        t.result.elim 0 JavaType.depth ≤ maxLevels ∧ ∀ e ∈ t.throws, e.depth ≤ maxLevels := by
    simpa [Tree.depth, deepest_le] using hdepth
  have hstop : Reads (· = []) thrown false 0 [] [] := by
    unfold thrown
    exact Reads.weaken ((skips_accept '^').finally (reads_pure _ false)) (Nat.le_refl 0)
      (by rintro _ rfl; simp [NotFrom])
  have hthrown := reads_repeated hstop (anything _) Thrown.text Thrown.classes t.throws
    fun e he => e.item (hthrows e he)
  have hreturn := (reads_returnType t.result hresult).andThen
    (f := fun _ => repeated thrown) hthrown
  have hclose := (reads_expect Anything ')').andThen
    (f := fun _ => returnType >>= fun _ => repeated thrown) hreturn
  have hrepeated := (reads_repeated skips_type (anything _) JavaType.text JavaType.classes
    t.arguments fun a ha => a.item (harguments a ha)).bind
      (f := fun _ => expect ')' >>= fun _ => returnType >>= fun _ => repeated thrown) hclose
      fun _ _ => rfl
  have hopen := (reads_expect Anything '(').andThen
    (f := fun _ => repeated Signature.type >>= fun _ => expect ')' >>= fun _ =>
      returnType >>= fun _ => repeated thrown) hrepeated
  have h := (reads_typeParameters t.parameters hbounded hparameters).bind
    (f := fun _ => expect '(' >>= fun _ => repeated Signature.type >>= fun _ => expect ')' >>=
      fun _ => returnType >>= fun _ => repeated thrown) hopen fun _ _ => by simp [NotFrom]
  have htext : (Tree.ofMethod t).text = parametersText t.parameters ++
      (['('] ++ (t.arguments.flatMap JavaType.text ++
        ([')'] ++ (t.result.elim ['V'] JavaType.text ++ t.throws.flatMap Thrown.text)))) := by
    simp [Tree.text]
  have hclasses : (Tree.ofMethod t).classes = t.parameters.flatMap TypeParameter.classes ++
      ([] ++ (t.arguments.flatMap JavaType.classes ++
        ([] ++ (t.result.elim [] JavaType.classes ++ t.throws.flatMap Thrown.classes)))) := by
    simp [Tree.classes]
  rw [htext, hclasses]
  refine h.weaken ?_ fun _ h => h
  simp only [bytes_append]
  omega

theorem reads_production (t : Tree) (hbounded : t.IsBounded) (hdepth : t.depth ≤ maxLevels) :
    Reads (· = []) (production t.kind) () (bytes t.text) t.text t.classes := by
  cases t with
  | ofClass t =>
    exact (reads_classSignature t hbounded hdepth).finally reads_finish
  | ofField type =>
    have h := (type.item_fieldType hdepth).reads.weaken (Nat.sub_le _ 1) (anything (· = []))
    exact h.finally (f := fun _ => finish) reads_finish
  | ofMethod t =>
    exact (reads_methodSignature t hbounded hdepth).finally reads_finish
  | ofType type =>
    have h := (type.item hdepth).reads.weaken (Nat.sub_le _ 1) (anything (· = []))
    exact h.finally (f := fun _ => finish) reads_finish

theorem bytes_eq_utf8ByteSize (text : List Char) :
    bytes text = (String.ofList text).utf8ByteSize := by
  induction text with
  | nil => rfl
  | cons c rest ih =>
    rw [bytes_cons, ih, String.ofList_cons, String.utf8ByteSize_append,
      String.utf8ByteSize_singleton]

theorem parse_of_reads {kind : SignatureKind} {text : List Char} {cost : Nat}
    {classes : List ClassId} (h : Reads (· = []) (production kind) () cost text classes)
    (hcost : cost ≤ maxSteps) : parse kind (String.ofList text) = ⟨classes, none⟩ := by
  obtain ⟨s, hs, -, -, hfound⟩ :=
    h { rest := text } [] rfl (List.append_nil text).symm (by rwa [Nat.zero_add])
  unfold parse
  rw [String.toList_ofList, EStateM.run, hs]
  simpa using hfound

/-- A signature of the grammar is parsed without an error, into the classes that it names. -/
theorem parse_text (t : Tree) (hbounded : t.IsBounded) (hdepth : t.depth ≤ 256)
    (hsize : (String.ofList t.text).utf8ByteSize ≤ 200000) :
    parse t.kind (String.ofList t.text) = ⟨t.classes, none⟩ := by
  refine parse_of_reads (reads_production t hbounded hdepth) ?_
  rw [bytes_eq_utf8ByteSize]
  exact hsize

/-- A method whose type parameter is bounded by an interface of itself only, and which takes
an array and an inner class, and throws an exception. -/
def methodTree : Tree :=
  let named (c : Char) (h : c ∉ ['.', ';', '[', '/', '<', '>', ':', '\n']) : Identifier :=
    ⟨[c], by simp, by simpa using h⟩
  let t := named 'T' (by decide)
  let p := named 'p' (by decide)
  let comparable : ReferenceType := .ofClass (.mk [p] (.mk (named 'C' (by decide))
    [.type (some .supertypes) (.ofVariable t)]) [])
  let inner : ReferenceType := .ofClass (.mk [p, p] (.mk (named 'O' (by decide)) [.any])
    [.mk (named 'I' (by decide)) [.type none (.array (.primitiveArray .int))]])
  .ofMethod {
    parameters := [⟨t, none, [comparable]⟩]
    arguments := [.primitive .int, .reference inner]
    result := none
    throws := [.ofClass (.mk [] (.mk (named 'E' (by decide)) []) [])] }

theorem parse_text_method :
    parse .ofMethod "<T::Lp/C<-TT;>;>(ILp/p/O<*>.I<[[I>;)V^LE;" =
      ⟨[classOf "p/C".toList, classOf "p/p/O".toList, classOf "p/p/O$I".toList,
        classOf "E".toList], none⟩ := by
  have htext : String.ofList methodTree.text = "<T::Lp/C<-TT;>;>(ILp/p/O<*>.I<[[I>;)V^LE;" := by
    decide
  have h := parse_text methodTree (by simp [methodTree, Tree.IsBounded, TypeParameter.IsBounded])
    (by decide) (by rw [htext]; decide)
  rw [htext] at h
  exact h

end ClassAtlas.Signature
