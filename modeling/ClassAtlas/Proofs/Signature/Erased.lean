import ClassAtlas.Proofs.ClassId.Forms
import ClassAtlas.Proofs.Signature.Completeness

/-!
# Erased signatures

The erased signature of a class names classes and nothing else: each stands between an `L` and a
semicolon, written like its id. So it need not be a text of the grammar. A name may have empty
segments or brackets in front, but it must not go on behind a semicolon or an angle bracket,
where the parser takes it to end. A class costs two steps, however long its name is, so there
are steps enough for all interfaces that a class can have.
-/

namespace ClassAtlas

/-- An id that is read back from its written form, which has no character that ends a name. -/
structure ClassId.IsErasable (id : ClassId) : Prop where
  ofText?_text : ofText? id.text = some id
  not_endsName : ∀ c ∈ id.text.toList, ¬ Signature.endsName c

theorem ClassId.isErasable_of_parse {text : String} {id : ClassId} (h : parse text = .ok id)
    (hend : ';' ∉ id.text.toList) (harguments : '<' ∉ id.text.toList) : id.IsErasable := by
  obtain ⟨f, hf, rfl⟩ := exists_form_of_ofText? (parse_eq_ok.1 h)
  have hdescribes := hf.describes h
  refine ⟨parse_eq_ok.1 hdescribes.parse_text, fun c hc hends => ?_⟩
  have hdot : c ≠ '.' := by
    rw [hdescribes.text_eq, String.toList_map] at hc
    obtain ⟨d, -, rfl⟩ := List.mem_map.1 hc
    split
    · decide
    · assumption
  have hc' : c ≠ ';' ∧ c ≠ '<' := ⟨fun h => hend (h ▸ hc), fun h => harguments (h ▸ hc)⟩
  simp [Signature.endsName, hdot, hc'] at hends

namespace Signature

open Scan

/-- A class in an erased signature. -/
def erasedText (id : ClassId) : List Char :=
  'L' :: (id.text.toList ++ [';'])

/-- Behind its packages, the name of a class is read in one step. -/
theorem reads_erasedName {id : ClassId} (h : id.IsErasable) (inner : Option (Scan Bool)) :
    let name := id.text.toList
    Reads Anything
      (simpleClasses inner (maxSteps + 1) (String.ofList (name.take (packagesLength name)))) () 1
      (name.drop (packagesLength name) ++ [';']) [id] := by
  intro name
  have hid : ClassId.ofText? (String.ofList (name.take (packagesLength name)) ++
      String.ofList (name.drop (packagesLength name))) = some id := by
    rw [← String.ofList_append, List.take_append_drop, String.ofList_toList]
    exact h.ofText?_text
  have hclass := reads_simpleClass_of_ofText?
    (fun d hd => h.not_endsName d (List.mem_of_mem_drop hd))
    (fun rest => ⟨';', rest, rfl, by decide⟩) hid (skips_typeArguments inner)
    (reads_end (simpleClasses inner maxSteps _)) (fun rest => by simp [NotFrom])
  rw [simpleClasses_succ]
  exact Reads.andThen (f := fun _ => simpleClass _ _ _) (reads_tick Anything) hclass

theorem reads_erasedClass {id : ClassId} (h : id.IsErasable) :
    Reads Anything topClassType true 1 (erasedText id) [id] := by
  have hpackages := (reads_packages_of_not_endsName h.not_endsName).bind
    (f := fun outer => do
      simpleClasses belowTop (maxSteps + 1) outer
      pure true)
    ((reads_erasedName h belowTop).finally (reads_pure _ true))
    (fun rest _ => ⟨';', rest, by simp, by decide⟩)
  rw [← List.append_assoc, List.take_append_drop, Nat.zero_add] at hpackages
  exact reads_after_accept (c := 'L') hpackages

theorem skips_topClassType : Reads (· = []) topClassType false 0 [] [] :=
  (skips_classType belowTop).weaken (Nat.le_refl 0) (by rintro _ rfl; simp [NotFrom])

theorem reads_erasedInterfaces {ids : List ClassId} (h : ∀ id ∈ ids, id.IsErasable)
    (hlength : ids.length ≤ maxSteps) :
    Reads (· = []) (repeated topClassType) () (2 * ids.length) (ids.flatMap erasedText) ids := by
  have hrepeated := reads_repeatedFor skips_topClassType (anything _) (fun _ => 1) erasedText
    (fun id => [id]) ids (fun id hid => reads_erasedClass (h id hid)) (fun _ _ _ => trivial)
    (maxSteps + 1) (by omega)
  have hcost : (ids.map fun _ => 1 + 1).sum = 2 * ids.length := by
    simp [Nat.mul_comm]
  rwa [hcost, List.flatMap_singleton'] at hrepeated

theorem reads_erasedSignature {ids : List ClassId} (h : ∀ id ∈ ids, id.IsErasable)
    (hlength : ids.length ≤ maxSteps) :
    Reads (· = []) classSignature () (2 * ids.length) (ids.flatMap erasedText) ids := by
  have hclasses : Reads (· = []) (topClassType >>= fun _ => repeated topClassType) ()
      (2 * ids.length) (ids.flatMap erasedText) ids := by
    cases ids with
    | nil => exact skips_topClassType.finally (reads_erasedInterfaces h hlength)
    | cons id rest =>
      obtain ⟨hid, hrest⟩ := List.forall_mem_cons.1 h
      rw [List.length_cons] at hlength ⊢
      have hall := (reads_erasedClass hid).andThen (f := fun _ => repeated topClassType)
        (reads_erasedInterfaces hrest (by omega))
      exact hall.weaken (by omega) fun _ h => h
  have hfront : ∀ rest, rest = [] → NotFrom '<' (ids.flatMap erasedText ++ rest) := by
    rintro _ rfl
    cases ids <;> simp [erasedText, NotFrom]
  have hall := skips_typeParameters.bind
    (f := fun _ => topClassType >>= fun _ => repeated topClassType) hclasses hfront
  rwa [Nat.zero_add] at hall

/-- Whatever classes an erased signature names, up to a superclass and as many interfaces as
can be counted, they are found in it. -/
theorem parse_erased {ids : List ClassId} (h : ∀ id ∈ ids, id.IsErasable)
    (hlength : ids.length ≤ 65536) :
    parse .ofClass (String.ofList (ids.flatMap erasedText)) = ⟨ids, none⟩ := by
  have hsteps : 2 * ids.length ≤ maxSteps := by
    have hmax : maxSteps = 200000 := rfl
    omega
  exact parse_of_reads ((reads_erasedSignature h (by omega)).finally reads_finish) hsteps

end Signature

end ClassAtlas
