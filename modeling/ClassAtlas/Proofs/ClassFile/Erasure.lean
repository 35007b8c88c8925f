import ClassAtlas.Proofs.ClassFile.Outline
import ClassAtlas.Proofs.ConstantPool.Classes
import ClassAtlas.Proofs.Signature.Erased

/-!
# Signatures of classes without generic types

A class file that has no attribute for its signature is asked for one all the same. It is written
from the superclass and the interfaces, and whatever takes a signature apart finds exactly these
in it, in the order of the file.
-/

namespace ClassAtlas

variable {σ : Type} {pool : ConstantPool}

/-! ### Classes without an attribute for the signature -/

def signatureName : String := "Signature"

theorem ClassAttributes.signature_readBody {name : String} (hname : name ≠ signatureName)
    (pool : ConstantPool) (said : ClassAttributes) :
    Answers (said.readBody pool name) (·.signature = said.signature) := by
  unfold readBody
  split
  · exact .after fun _ => .after fun _ => .pure rfl
  · contradiction
  · exact .after fun _ => .pure rfl
  · exact .after fun _ => .pure rfl
  · exact .after fun _ => .pure rfl
  · exact .after fun _ => .pure rfl
  · exact .pure rfl

theorem AttributeOutline.signature_outcome {a : AttributeOutline pool}
    (hname : pool.textAt a.frame.name ≠ .ok signatureName) {said next : ClassAttributes}
    (h : outcome said a = .ok next) : next.signature = said.signature := by
  obtain ⟨name, hmeans, hread⟩ := bind_eq_ok_iff.1 h
  obtain ⟨stop, hread⟩ := Decoder.alone_eq_ok_iff.1 hread
  have hother : name ≠ signatureName := fun heq => hname (heq ▸ hmeans)
  exact ClassAttributes.signature_readBody hother pool said _ _ _ hread

namespace ClassOutline

variable {expected : Option ClassId}

/-- No attribute of the class has the name of one that holds a signature. -/
def IsUnsigned (o : ClassOutline expected) : Prop :=
  ∀ a ∈ o.attributes, o.opening.pool.textAt a.frame.name ≠ .ok signatureName

theorem IsUnsigned.signature_eq_none {o : ClassOutline expected} (h : o.IsUnsigned)
    {said : ClassAttributes} (hsaid : o.said = .ok said) : said.signature = none := by
  refine foldlM_keeps (P := fun said : ClassAttributes => said.signature = none) ?_ rfl hsaid
  intro a ha said next hnone houtcome
  rw [AttributeOutline.signature_outcome (h a ha) houtcome, hnone]

end ClassOutline

/-! ### Superclasses and interfaces -/

def ClassFile.supertypes (c : ClassFile) : List ClassId :=
  c.superclass.toList ++ c.interfaces

def Analysis.supertypes (a : Analysis) : List ClassId :=
  a.ask [] ClassFile.supertypes

theorem ClassFile.erasedSignature_eq (c : ClassFile) :
    c.erasedSignature = String.ofList (c.supertypes.flatMap Signature.erasedText) := by
  have hjoin (ids : List ClassId) : String.join (ids.map fun id => "L" ++ id.text ++ ";") =
      String.ofList (ids.flatMap Signature.erasedText) := by
    induction ids with
    | nil => rfl
    | cons id ids ih =>
      have hid : String.ofList (Signature.erasedText id) = "L" ++ id.text ++ ";" := by
        apply String.toList_inj.1
        simp [Signature.erasedText]
      rw [List.map_cons, String.join_cons, ih, List.flatMap_cons, String.ofList_append, hid]
  exact hjoin c.supertypes

theorem ConstantPool.classAt_readClass (pool : ConstantPool) :
    Answers pool.readClass fun id => ∃ index, pool.classAt index = .ok id :=
  .after fun index => (Answers.ofExcept _).mono fun _ h => ⟨index, h⟩

namespace ClassFile

theorem classAt_readOptionalClass (pool : ConstantPool) :
    Answers (readOptionalClass pool)
      fun found => ∀ id ∈ found.toList, ∃ index, pool.classAt index = .ok id := by
  refine .after fun index => ?_
  split
  · exact .pure fun id hid => by cases hid
  · refine (Answers.ofExcept _).map some fun id hid other hother => ?_
    rw [Option.toList_some, List.mem_singleton] at hother
    exact ⟨index, hother ▸ hid⟩

/-- Superclass and interfaces are found in the pool, and the interfaces have been counted. -/
theorem supertypes_readDeclared (expected : Option ClassId) (pool : ConstantPool) :
    Answers (readDeclared expected pool) fun declared => declared.interfaces.length < 65536 ∧
      ∀ id ∈ declared.superclass.toList ++ declared.interfaces,
        ∃ index, pool.classAt index = .ok id := by
  refine .after fun id => .after fun _ => ?_
  refine (classAt_readOptionalClass pool).bind fun superclass hsuperclass => ?_
  refine ((Answers.length_counted _).and pool.classAt_readClass.counted).bind
    fun interfaces hinterfaces => ?_
  refine .after fun fields => .after fun methods => .pure ⟨hinterfaces.1, fun id hid => ?_⟩
  exact (List.mem_append.1 hid).elim (hsuperclass id) (hinterfaces.2 id)

theorem hasParsedClasses_readOpening :
    Answers readOpening fun opening => opening.pool.HasParsedClasses := by
  refine .after fun start => ?_
  split
  · exact .after fun _ => .after fun _ => .after fun _ =>
      ConstantPool.hasParsedClasses_read.map _ fun _ h => h
  · exact .after fun _ => .after fun _ =>
      ConstantPool.hasParsedClasses_read.map _ fun _ h => h

end ClassFile

namespace ClassOutline

variable {expected : Option ClassId}

theorem parse_supertypes (o : ClassOutline expected) :
    (o.declared.superclass.toList ++ o.declared.interfaces).length ≤ 65536 ∧
      ∀ id ∈ o.declared.superclass.toList ++ o.declared.interfaces,
        ∃ text, ClassId.parse text = .ok id := by
  have hpool := ClassFile.hasParsedClasses_readOpening _ _ _ (o.decodes_front 0 [])
  obtain ⟨hcount, hfound⟩ := ClassFile.supertypes_readDeclared expected o.opening.pool _ _ _
    (o.decodes_body 0 [])
  refine ⟨?_, fun id hid => ?_⟩
  · have hone : o.declared.superclass.toList.length ≤ 1 := Option.length_toList_le
    rw [List.length_append]
    omega
  · obtain ⟨index, hindex⟩ := hfound id hid
    exact hpool index id hindex

end ClassOutline

/-- The sink that does this with a class, and takes signatures apart. -/
abbrev ClassSink.ofSubmit (submit : ClassId → σ → σ) : ClassSink σ :=
  { submit }

theorem ClassSink.accept_ofSubmit (submit : ClassId → σ → σ) {submission : Submission}
    {classes : List ClassId} (h : submission.outcome = ⟨classes, none⟩) (sink : σ) :
    (ofSubmit submit).accept submission sink =
      .ok () (classes.foldl (fun sink id => submit id sink) sink) := by
  simp only [accept, h]

namespace Analysis

/-- A class file that loads has an outline. If no attribute in it is a signature, and the names of
its superclass and its interfaces have no character that ends a name, then whatever is submitted
of its signature is the superclass and the interfaces, one after another, without a fault. -/
theorem accept_signature_of_isUnsigned {expected : Option ClassId} {bytes : List UInt8}
    {before after : Analysis} (hload : (load expected bytes).run before = .ok () after) :
    (∃ o : ClassOutline expected, bytes = o.bytes) ∧
      ∀ o : ClassOutline expected, bytes = o.bytes → o.IsUnsigned →
        (∀ id ∈ after.supertypes, ';' ∉ id.text.toList ∧ '<' ∉ id.text.toList) →
        ∃ text, after.signature? = some text ∧
          ∀ {σ : Type} (submit : ClassId → σ → σ) (sink : σ),
            (ClassSink.ofSubmit submit).accept (.signature .ofClass text) sink =
              .ok () (after.supertypes.foldl (fun sink id => submit id sink) sink) := by
  obtain ⟨c, hdecode, rfl⟩ := load_eq_ok_iff.1 hload
  refine ⟨ClassOutline.exists_of_decode hdecode, ?_⟩
  rintro o rfl hunsigned hnames
  obtain ⟨said, hsaid, rfl⟩ := o.decode_eq_ok_iff.1 hdecode
  obtain ⟨hcount, hparsed⟩ := o.parse_supertypes
  have herasable (id) (hid : id ∈ o.declared.superclass.toList ++ o.declared.interfaces) :
      id.IsErasable := by
    obtain ⟨text, htext⟩ := hparsed id hid
    exact ClassId.isErasable_of_parse htext (hnames id hid).1 (hnames id hid).2
  refine ⟨_, rfl, fun submit sink => ?_⟩
  have houtcome : (Submission.signature .ofClass
      (ClassFile.ofParts o.opening o.flags o.declared said).signature).outcome =
        ⟨o.declared.superclass.toList ++ o.declared.interfaces, none⟩ := by
    rw [ClassFile.signature, ClassFile.ofParts, hunsigned.signature_eq_none hsaid,
      Option.getD_none, ClassFile.erasedSignature_eq]
    exact Signature.parse_erased herasable hcount
  exact ClassSink.accept_ofSubmit submit houtcome sink

/-- The constants of a class `A` that extends `b/B` and implements `I` and, oddly, `[I`. -/
def implementingConstants : WrittenPool :=
  ⟨[.ofPayload "A" [0x41] (by decide) (by decide), .ofClass 1,
    .ofPayload "b/B" [0x62, 0x2F, 0x42] (by decide) (by decide), .ofClass 3,
    .ofPayload "I" [0x49] (by decide) (by decide), .ofClass 5,
    .ofPayload "[I" [0x5B, 0x49] (by decide) (by decide), .ofClass 7]⟩

theorem implementingConstants_resolvable : implementingConstants.layout.IsResolvable := by
  unfold PoolLayout.IsResolvable
  simp only [implementingConstants, WrittenPool.layout, List.map_cons, List.map_nil,
    List.forall_mem_cons]
  decide

/-- The class `A`, with an attribute that nothing reads. -/
def implementingClass : ClassOutline none where
  opening := ⟨0, 52, implementingConstants.layout.pool⟩
  front := u4Bytes ClassFile.magic ++ (u2Bytes 0 ++ (u2Bytes 52 ++ implementingConstants.bytes))
  flags := 0x0021
  declared :=
    { id := .ofName (.ofText "A")
      superclass := some (.ofName (.ofText "b/B"))
      interfaces := [.ofName (.ofText "I"), .primitive 0 .int]
      fields := []
      methods := [] }
  body := [0, 2, 0, 4, 0, 2, 0, 6, 0, 8, 0, 0, 0, 0]
  attributes := [.other ⟨1, [1, 2], by decide⟩ fun h => absurd (Except.ok.inj h) (by decide)]
  trailing := []
  decodes_front := ClassFile.decodes_readOpening 0 52 (by decide) implementingConstants_resolvable
  decodes_body := by
    let pool := implementingConstants.layout.pool
    have hid : Decodes pool.readClass (u2Bytes 2) (.ofName (.ofText "A")) :=
      pool.yields_readClass 2
    have hsuperclass : Decodes (ClassFile.readOptionalClass pool) (u2Bytes 4)
        (some (.ofName (.ofText "b/B"))) :=
      ClassFrame.yields_readOptionalClass pool 4
    have hinterfaces := Yields.counted [6, 8] (by decide) fun i _ => pool.yields_readClass i
    have hnone {α : Type} (item : Decoder α) : Decodes (Decoder.counted item) (u2Bytes 0) [] :=
      (Decodes.u2 0).last (.pure [])
    exact hid.bind (.after (.pure ()) (hsuperclass.bind (hinterfaces.decodes.bind
      ((hnone _).bind ((hnone _).last (.pure _))))))
  attributes_lt := by decide

theorem implementingClass_isUnsigned : implementingClass.IsUnsigned :=
  List.forall_mem_singleton.2 fun h => absurd (Except.ok.inj h) (by decide)

theorem accept_signature_of_isUnsigned_implementingClass :
    implementingClass.IsUnsigned ∧
      ∃ loaded : Analysis, (load none implementingClass.bytes).run {} = .ok () loaded ∧
        (∀ id ∈ loaded.supertypes, ';' ∉ id.text.toList ∧ '<' ∉ id.text.toList) ∧
        ∃ text, loaded.signature? = some text ∧
          ∀ {σ : Type} (submit : ClassId → σ → σ) (sink : σ),
            (ClassSink.ofSubmit submit).accept (.signature .ofClass text) sink =
              .ok () ([.ofName (.ofText "b/B"), .ofName (.ofText "I"), .primitive 0 .int].foldl
                (fun sink id => submit id sink) sink) := by
  have hdecode := implementingClass.decode_eq_ok_iff.2 ⟨_, rfl, rfl⟩
  have hload : (load none implementingClass.bytes).run {} = .ok () _ :=
    load_eq_ok_iff.2 ⟨_, hdecode, rfl⟩
  have hnames : ∀ id ∈ [.ofName (.ofText "b/B"), .ofName (.ofText "I"),
      ClassId.primitive 0 .int], ';' ∉ id.text.toList ∧ '<' ∉ id.text.toList := by
    decide +kernel
  refine ⟨implementingClass_isUnsigned, _, hload, hnames, ?_⟩
  exact (accept_signature_of_isUnsigned hload).2 implementingClass rfl
    implementingClass_isUnsigned hnames

end Analysis

end ClassAtlas
