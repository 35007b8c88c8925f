import Mathlib.Order.Bounds.Defs
import ClassAtlas.Proofs.ClassFile.Erasure
import ClassAtlas.Proofs.Survey.Runs

/-!
# The classes that a survey finds

A survey that finishes has met the least set of classes that holds the classes it started
from and, with every class of the tree, all classes that the file of this class names. The
run goes through the classes of the tree once each, in the order in which they were first
met. `Progress` is what holds between two visits of a run.
-/

namespace ClassAtlas

/-! ### What class files name -/

@[simp] theorem ClassId.names_ofName (names : List ClassName) :
    ClassId.names (names.map ofName) = names := by
  simp [ClassId.names, ClassId.className?, Function.comp_def]

theorem ClassId.mem_names_iff_object {ids : List ClassId} {name : ClassName} :
    name ∈ names ids ↔ ∃ dimensions, .object dimensions name ∈ ids := by
  have hclass (id : ClassId) :
      id.className? = some name ↔ ∃ dimensions, id = .object dimensions name := by
    cases id <;> simp [className?]
  simp only [mem_names, hclass]
  grind

theorem ConstantPool.mem_names_classesBySlot {pool : ConstantPool} {name : ClassName} :
    name ∈ ClassId.names pool.classesBySlot ↔ ∃ index dimensions,
      pool.get? index = some (.constant (.classLiteral (.object dimensions name))) := by
  simp only [ClassId.mem_names_iff_object, mem_classesBySlot]
  exact exists_comm

namespace ClassFile

variable {expected : Option ClassId} {bytes : List UInt8} {c : ClassFile}

/-- The signature of a class: its generic signature or, where it has none, its superclass and its
interfaces as class types. -/
def classSignature (c : ClassFile) : String :=
  c.attributes.signature.getD (String.ofList (c.supertypes.flatMap Signature.erasedText))

/-- The signatures that are followed in a class file, in order: that of the class, and those of
the fields and the methods if these are followed. -/
def signatures (c : ClassFile) (followsMembers : Bool) : List (SignatureKind × String) :=
  (.ofClass, c.classSignature) ::
    if followsMembers then
      c.fields.map (fun m => (.ofType, m.descriptor)) ++
        c.methods.map fun m => (.ofMethod, m.descriptor)
    else []

/-- The classes that a class file names, in the order of the file: the class entries of its pool,
slot by slot, and those in its signatures. -/
def mentioned (c : ClassFile) (followsMembers : Bool) : List ClassId :=
  c.pool.classesBySlot ++
    (c.signatures followsMembers).flatMap fun s => (Signature.parse s.1 s.2).classes

theorem submissions_eq (h : decode expected bytes = .ok c) (followsMembers : Bool) :
    c.submissions followsMembers = c.references.map (fun name => .single (.ofName name)) ++
      (c.signatures followsMembers).map fun s => .signature s.1 s.2 := by
  have hsignature : c.signature = c.classSignature := by
    rw [signature, erasedSignature_eq, classSignature]
  rw [submissions, hsignature, signatures]
  cases followsMembers with
  | false => rfl
  | true =>
    obtain ⟨hfields, hmethods⟩ := kind_of_decode h
    have hmembers : (c.members.map fun m => Submission.signature m.kind.signatureKind m.descriptor) =
        c.fields.map (fun m => .signature .ofType m.descriptor) ++
          c.methods.map fun m => .signature .ofMethod m.descriptor := by
      rw [members, List.map_append]
      congr 1
      · exact List.map_congr_left fun m hm => by rw [hfields m hm, MemberKind.signatureKind]
      · exact List.map_congr_left fun m hm => by rw [hmethods m hm, MemberKind.signatureKind]
    rw [if_pos rfl, if_pos rfl, hmembers, List.map_cons, List.map_append, List.map_map,
      List.map_map]
    rfl

/-- The references of a class file are the class entries of its pool. -/
theorem names_references (h : decode expected bytes = .ok c) :
    ClassId.names ((c.references.map fun name => Submission.single (.ofName name)).flatMap
      (·.outcome.classes)) = ClassId.names c.pool.classesBySlot := by
  rw [List.flatMap_map]
  change ClassId.names (c.references.flatMap fun name => [ClassId.ofName name]) = _
  rw [← List.map_eq_flatMap, ClassId.names_ofName, ← classes_eq_of_decode h]
  rfl

theorem named_eq (h : decode expected bytes = .ok c) (followsMembers : Bool) :
    c.named followsMembers = ClassId.names (c.mentioned followsMembers) := by
  rw [named, submissions_eq h, List.flatMap_append, ClassId.names_append, names_references h,
    List.flatMap_map, ← ClassId.names_append]
  rfl

theorem exists_decode_of_get? {index : UInt16} {entry : PoolEntry}
    (h : (decode expected bytes).toOption.bind (·.pool.get? index) = some entry) :
    ∃ c, decode expected bytes = .ok c ∧ c.pool.get? index = some entry := by
  cases hdecode : decode expected bytes with
  | error e => simp [hdecode, Except.toOption] at h
  | ok c => exact ⟨c, rfl, by simpa [hdecode, Except.toOption] using h⟩

end ClassFile

namespace Survey

variable {load : ClassName → Except Error (List UInt8)} {probe : Probe} {followsMembers : Bool}
  {roots : List ClassId} {s t : Survey} {visited more : List (ClassName × ClassFile)}

/-- The class file that is loaded for a class. -/
def IsFileOf (load : ClassName → Except Error (List UInt8)) (name : ClassName)
    (c : ClassFile) : Prop :=
  ∃ bytes, load name = .ok bytes ∧ ClassFile.decode (some (.ofName name)) bytes = .ok c

/-- A set of classes that holds the roots without their dimensions and, for each of its
classes that belongs to the tree, every class that the class file of this one names: in its
constant pool, in the signature of the class, and in the signatures of the fields and the methods
where these are followed. -/
structure ClosedUnder (probe : Probe) (load : ClassName → Except Error (List UInt8))
    (followsMembers : Bool) (roots : List ClassId) (T : Set ClassName) : Prop where
  root (dimensions : Nat) (name : ClassName) : .object dimensions name ∈ roots → name ∈ T
  poolClass (x : ClassName) (c : ClassFile) (index : UInt16) (dimensions : Nat)
    (name : ClassName) :
    x ∈ T → probe.accepts x → IsFileOf load x c →
    c.pool.get? index = some (.constant (.classLiteral (.object dimensions name))) → name ∈ T
  classSignature (x : ClassName) (c : ClassFile) (dimensions : Nat) (name : ClassName) :
    x ∈ T → probe.accepts x → IsFileOf load x c →
    .object dimensions name ∈ (Signature.parse .ofClass c.classSignature).classes → name ∈ T
  fieldSignature (x : ClassName) (c : ClassFile) (m : Member) (dimensions : Nat)
    (name : ClassName) :
    followsMembers = true → x ∈ T → probe.accepts x → IsFileOf load x c → m ∈ c.fields →
    .object dimensions name ∈ (Signature.parse .ofType m.descriptor).classes → name ∈ T
  methodSignature (x : ClassName) (c : ClassFile) (m : Member) (dimensions : Nat)
    (name : ClassName) :
    followsMembers = true → x ∈ T → probe.accepts x → IsFileOf load x c → m ∈ c.methods →
    .object dimensions name ∈ (Signature.parse .ofMethod m.descriptor).classes → name ∈ T

theorem isFileOf_of_look {name : ClassName} {c : ClassFile}
    (h : look load followsMembers name = .ok c) : IsFileOf load name c := by
  unfold look at h
  cases hload : load name with
  | error e => simp [hload] at h
  | ok bytes =>
    simp only [hload] at h
    cases hdecode : ClassFile.decode (some (.ofName name)) bytes with
    | error e => simp [hdecode] at h
    | ok found =>
      simp only [hdecode] at h
      cases hfault : Submission.fault? (found.submissions followsMembers) with
      | some e => simp [hfault] at h
      | none =>
        simp only [hfault, Except.ok.injEq] at h
        exact ⟨bytes, hload, by rw [hdecode, h]⟩

theorem fault?_of_look {name : ClassName} {c : ClassFile}
    (h : look load followsMembers name = .ok c) :
    Submission.fault? (c.submissions followsMembers) = none := by
  unfold look at h
  split at h
  · cases h
  · split at h
    · cases h
    · split at h
      · cases h
      · next hfault => exact Except.ok.inj h ▸ hfault

theorem IsFileOf.unique {name : ClassName} {c d : ClassFile} (hc : IsFileOf load name c)
    (hd : IsFileOf load name d) : c = d := by
  obtain ⟨bytes, hload, hdecode⟩ := hc
  obtain ⟨others, hload', hdecode'⟩ := hd
  rw [hload, Except.ok.injEq] at hload'
  rw [← hload', hdecode, Except.ok.injEq] at hdecode'
  exact hdecode'

theorem IsFileOf.named_eq {x : ClassName} {c : ClassFile} (h : IsFileOf load x c)
    (followsMembers : Bool) :
    c.named followsMembers = ClassId.names (c.mentioned followsMembers) := by
  obtain ⟨bytes, -, hdecode⟩ := h
  exact ClassFile.named_eq hdecode followsMembers

/-- What a class file names, by the place where it is named. -/
theorem IsFileOf.mem_named {x : ClassName} {c : ClassFile} (h : IsFileOf load x c)
    {name : ClassName} :
    name ∈ c.named followsMembers ↔
      (∃ index dimensions,
        c.pool.get? index = some (.constant (.classLiteral (.object dimensions name)))) ∨
      (∃ dimensions,
        .object dimensions name ∈ (Signature.parse .ofClass c.classSignature).classes) ∨
      (followsMembers = true ∧ ∃ m ∈ c.fields, ∃ dimensions,
        .object dimensions name ∈ (Signature.parse .ofType m.descriptor).classes) ∨
      (followsMembers = true ∧ ∃ m ∈ c.methods, ∃ dimensions,
        .object dimensions name ∈ (Signature.parse .ofMethod m.descriptor).classes) := by
  rw [h.named_eq, ClassFile.mentioned, ClassId.names_append, List.mem_append,
    ConstantPool.mem_names_classesBySlot, ClassId.mem_names_iff_object, ClassFile.signatures]
  cases followsMembers <;>
    simp [exists_or, List.mem_flatMap]
  grind

/-- What holds between two visits of a run that started from the roots. -/
structure Progress (probe : Probe) (load : ClassName → Except Error (List UInt8))
    (followsMembers : Bool) (roots : List ClassId) (s : Survey)
    (visited : List (ClassName × ClassFile)) : Prop where
  follows : s.followsMembers = followsMembers
  looks : ∀ v ∈ visited, look load followsMembers v.1 = .ok v.2
  classifies : s.frontier.Classifies probe
    (ClassId.names roots ++ visited.flatMap fun v => v.2.named followsMembers)
  taken : visited.map Prod.fst <+: s.frontier.order.toList
  taken_eq : s.frontier.taken = visited.length
  analyzed : s.analyzed = visited.length
  profile : s.profile.Holds (visited.map Prod.snd)

theorem fresh_eq (probe : Probe) (followsMembers : Bool) (roots : List ClassId) :
    fresh probe followsMembers roots =
      { start probe followsMembers with
        frontier := Frontier.submitAll { probe } roots } := by
  have hfold (s : Survey) : roots.foldl submit s =
      { s with frontier := s.frontier.submitAll roots } := by
    induction roots generalizing s with
    | nil => rfl
    | cons id rest ih => exact ih (s.submit id)
  exact hfold (start probe followsMembers)

theorem progress_fresh (probe : Probe) (load : ClassName → Except Error (List UInt8))
    (followsMembers : Bool) (roots : List ClassId) :
    Progress probe load followsMembers roots (fresh probe followsMembers roots) [] := by
  rw [fresh_eq]
  exact {
    follows := rfl
    looks := by simp
    classifies := by simpa using (Frontier.classifies_empty probe).submitAll roots
    taken := List.nil_prefix
    taken_eq := by simp
    analyzed := rfl
    profile := Profile.holds_empty }

end Survey

namespace Frontier

theorem next_eq_some {f rest : Frontier} {name : ClassName} (h : f.next = (some name, rest)) :
    f.order.toList[f.taken]? = some name ∧ rest = { f with taken := f.taken + 1 } := by
  unfold next at h
  split at h
  · cases h
  · next found hfound =>
    cases h
    exact ⟨by simpa using hfound, rfl⟩

theorem next_fst_eq_none_iff {f : Frontier} : f.next.1 = none ↔ f.order.size ≤ f.taken := by
  unfold next
  split
  · next h => simpa using h
  · next h =>
    have hlt := (Array.getElem?_eq_some_iff.1 h).1
    simp [hlt]

end Frontier

namespace Survey

variable {load : ClassName → Except Error (List UInt8)} {probe : Probe} {followsMembers : Bool}
  {roots : List ClassId} {s t : Survey} {visited more : List (ClassName × ClassFile)}

/-- The class that is next was met, belongs to the tree, and was not visited yet. -/
theorem Progress.mem_of_next (h : Progress probe load followsMembers roots s visited)
    {name : ClassName} (hnext : s.frontier.next.1 = some name) :
    name ∈ s.frontier.internal ∧ name ∉ visited.map Prod.fst := by
  have hpair : s.frontier.next = (some name, s.frontier.next.2) := by rw [← hnext]
  have hget := (Frontier.next_eq_some hpair).1
  refine ⟨(h.classifies.mem_order name).1 (List.mem_of_getElem? hget), ?_⟩
  obtain ⟨later, horder⟩ := h.taken
  have hnodup := h.classifies.nodup_order
  rw [← horder] at hget hnodup
  rw [h.taken_eq, List.getElem?_append_right (by simp)] at hget
  exact fun hin => (List.nodup_append.1 hnodup).2.2 name hin name (List.mem_of_getElem? hget) rfl

theorem Progress.looked (h : Progress probe load followsMembers roots s visited)
    {name : ClassName} {frontier : Frontier} {c : ClassFile}
    (hnext : s.frontier.next = (some name, frontier))
    (hlook : look load s.followsMembers name = .ok c) :
    Progress probe load followsMembers roots ({ s with frontier }.looked c)
      (visited ++ [(name, c)]) := by
  rw [h.follows] at hlook
  obtain ⟨hget, rfl⟩ := Frontier.next_eq_some hnext
  have hclasses := Submission.classes_of_fault?_eq_none (fault?_of_look hlook)
  have hprefix : (visited ++ [(name, c)]).map Prod.fst <+: s.frontier.order.toList := by
    obtain ⟨later, horder⟩ := h.taken
    rw [← horder, h.taken_eq, List.getElem?_append_right (by simp)] at hget
    cases later with
    | nil => simp at hget
    | cons first later =>
      have : first = name := by simpa using hget
      exact ⟨later, by simp [← horder, this]⟩
  exact {
    follows := h.follows
    looks := by
      intro v hv
      rcases List.mem_append.1 hv with hv | hv
      · exact h.looks v hv
      · rw [List.mem_singleton.1 hv]
        exact hlook
    classifies := by
      have := (h.classifies.taken (s.frontier.taken + 1)).submitAll
        ((c.submissions followsMembers).flatMap (·.outcome.classes))
      simpa [Survey.looked, h.follows, hclasses, ClassFile.named] using this
    taken := hprefix.trans
      (Frontier.order_submitAll_prefix { s.frontier with taken := s.frontier.taken + 1 } _)
    taken_eq := by simp [Survey.looked, h.taken_eq]
    analyzed := by simp [Survey.looked, h.analyzed]
    profile := by simpa [Survey.looked] using h.profile.addTo c }

theorem Visits.progress (hv : Visits load s more t)
    (h : Progress probe load followsMembers roots s visited) :
    Progress probe load followsMembers roots t (visited ++ more) := by
  induction hv generalizing visited with
  | nil s => simpa using h
  | cons hnext hlook hrest ih => simpa using ih (h.looked hnext hlook)

/-- Everything that a run meets lies in every closed set. -/
theorem Visits.subset (hv : Visits load s more t) {T : Set ClassName}
    (hT : ClosedUnder probe load followsMembers roots T)
    (h : Progress probe load followsMembers roots s visited)
    (hs : ∀ x, x ∈ s.frontier.internal ∨ x ∈ s.frontier.external → x ∈ T) :
    ∀ x, x ∈ t.frontier.internal ∨ x ∈ t.frontier.external → x ∈ T := by
  induction hv generalizing visited with
  | nil s => exact hs
  | @cons s t name frontier c more hnext hlook hrest ih =>
    have hnew := h.looked hnext hlook
    refine ih hnew ?_
    intro x hx
    rw [hnew.classifies.known_iff, List.flatMap_append, ← List.append_assoc,
      List.mem_append] at hx
    rcases hx with hx | hx
    · exact hs x ((h.classifies.known_iff x).2 hx)
    · have hin := (h.mem_of_next (by rw [hnext])).1
      have hname := hs name (Or.inl hin)
      have haccepts := ((h.classifies.mem_internal name).1 hin).2
      have hfile := isFileOf_of_look hlook
      have hnamed : x ∈ c.named followsMembers := by simpa using hx
      rcases hfile.mem_named.1 hnamed with ⟨index, d, hentry⟩ | ⟨d, hmem⟩ |
        ⟨hfollows, m, hm, d, hmem⟩ | ⟨hfollows, m, hm, d, hmem⟩
      · exact hT.poolClass name c index d x hname haccepts hfile hentry
      · exact hT.classSignature name c d x hname haccepts hfile hmem
      · exact hT.fieldSignature name c m d x hfollows hname haccepts hfile hm hmem
      · exact hT.methodSignature name c m d x hfollows hname haccepts hfile hm hmem

/-- A survey that is about to start knows its roots and nothing else. -/
theorem ClosedUnder.mem_of_fresh {T : Set ClassName}
    (hT : ClosedUnder probe load followsMembers roots T) (x : ClassName)
    (hx : x ∈ (fresh probe followsMembers roots).frontier.internal ∨
      x ∈ (fresh probe followsMembers roots).frontier.external) : x ∈ T := by
  rw [(progress_fresh probe load followsMembers roots).classifies.known_iff] at hx
  obtain ⟨d, hroot⟩ := ClassId.mem_names_iff_object.1 (by simpa using hx)
  exact hT.root d x hroot

/-- A survey from the roots has finished after these visits. -/
structure Complete (probe : Probe) (load : ClassName → Except Error (List UInt8))
    (followsMembers : Bool) (roots : List ClassId) (t : Survey)
    (visited : List (ClassName × ClassFile)) : Prop where
  visits : Visits load (fresh probe followsMembers roots) visited t
  next_eq : t.frontier.next.1 = none

namespace Complete

variable (h : Complete probe load followsMembers roots t visited)
include h

theorem progress : Progress probe load followsMembers roots t visited := by
  simpa using h.visits.progress (progress_fresh probe load followsMembers roots)

/-- Everything internal was visited, in the order in which it was met. -/
theorem visited_eq : visited.map Prod.fst = t.frontier.order.toList := by
  obtain ⟨later, horder⟩ := h.progress.taken
  have hsize := Frontier.next_fst_eq_none_iff.1 h.next_eq
  have hlength := congrArg List.length horder
  rw [h.progress.taken_eq] at hsize
  simp only [List.length_append, List.length_map, Array.length_toList] at hlength
  have hnil : later = [] := List.eq_nil_of_length_eq_zero (by omega)
  rw [← horder, hnil, List.append_nil]

theorem analyzed_eq : t.analyzed = t.frontier.internal.size := by
  rw [h.progress.analyzed, h.progress.classifies.size_internal, ← Array.length_toList,
    ← h.visited_eq, List.length_map]

theorem look_of_mem {x : ClassName} (hx : x ∈ t.frontier.internal) :
    ∃ c, (x, c) ∈ visited ∧ look load followsMembers x = .ok c := by
  rw [← h.progress.classifies.mem_order, ← h.visited_eq] at hx
  obtain ⟨⟨x, c⟩, hv, rfl⟩ := List.mem_map.1 hx
  exact ⟨c, hv, h.progress.looks (x, c) hv⟩

theorem closedUnder : ClosedUnder probe load followsMembers roots
    {x | x ∈ t.frontier.internal ∨ x ∈ t.frontier.external} := by
  have hknown := h.progress.classifies.known_iff
  have hnamed (x : ClassName) (c : ClassFile) (name : ClassName)
      (hx : x ∈ t.frontier.internal ∨ x ∈ t.frontier.external) (haccepts : probe.accepts x)
      (hfile : IsFileOf load x c) (hname : name ∈ c.named followsMembers) :
      name ∈ t.frontier.internal ∨ name ∈ t.frontier.external := by
    have hin : x ∈ t.frontier.internal :=
      (h.progress.classifies.mem_internal x).2 ⟨(hknown x).1 hx, haccepts⟩
    obtain ⟨d, hd, hlook⟩ := h.look_of_mem hin
    rw [hfile.unique (isFileOf_of_look hlook)] at hname
    exact (hknown name).2 (List.mem_append_right _ (List.mem_flatMap.2 ⟨(x, d), hd, hname⟩))
  exact {
    root := fun d name hroot =>
      (hknown name).2 (List.mem_append_left _ (ClassId.mem_names_iff_object.2 ⟨d, hroot⟩))
    poolClass := fun x c index d name hx ha hc hentry =>
      hnamed x c name hx ha hc (hc.mem_named.2 (.inl ⟨index, d, hentry⟩))
    classSignature := fun x c d name hx ha hc hmem =>
      hnamed x c name hx ha hc (hc.mem_named.2 (.inr (.inl ⟨d, hmem⟩)))
    fieldSignature := fun x c m d name hfollows hx ha hc hm hmem =>
      hnamed x c name hx ha hc (hc.mem_named.2 (.inr (.inr (.inl ⟨hfollows, m, hm, d, hmem⟩))))
    methodSignature := fun x c m d name hfollows hx ha hc hm hmem =>
      hnamed x c name hx ha hc
        (hc.mem_named.2 (.inr (.inr (.inr ⟨hfollows, m, hm, d, hmem⟩)))) }

/-- What the survey knows lies in every closed set. -/
theorem subset_of_closedUnder {T : Set ClassName}
    (hT : ClosedUnder probe load followsMembers roots T) (x : ClassName)
    (hx : x ∈ t.frontier.internal ∨ x ∈ t.frontier.external) : x ∈ T :=
  h.visits.subset hT (progress_fresh probe load followsMembers roots) hT.mem_of_fresh x hx

end Complete

/-- A run that finishes has completed the survey, and its loader was asked for the visited
classes and no others. -/
theorem complete_of_run_traced {visits : Nat} {asked : List ClassName}
    (h : (run (traced load) visits (fresh probe followsMembers roots)).run [] =
      ((.finished, t), asked)) :
    ∃ visited, Complete probe load followsMembers roots t visited ∧
      asked = visited.map Prod.fst := by
  obtain ⟨more, hasked, hends⟩ :=
    @run_traced_ends load visits (fresh probe followsMembers roots) []
  change run (traced load) visits (fresh probe followsMembers roots) [] = _ at h
  rw [h] at hasked hends
  cases hends with
  | finished hvisits hnext => exact ⟨_, ⟨hvisits, hnext⟩, hasked⟩

/-- The class file of a class `p/A` whose superclass is `q/B`. Its pool has a class `r/C`, too,
that nothing else in the file names. -/
def childFile : List UInt8 :=
  [0xCA, 0xFE, 0xBA, 0xBE, 0, 0, 0, 52, 0, 7, 1, 0, 3, 112, 47, 65, 7, 0, 1, 1, 0, 3, 113, 47, 66,
   7, 0, 3, 1, 0, 3, 114, 47, 67, 7, 0, 5, 0, 1, 0, 2, 0, 4, 0, 0, 0, 0, 0, 0, 0, 0]

/-- A run over a tree that holds `p/A` alone, from an array of it. -/
def childRun : (Run × Survey) × List ClassName :=
  (run (traced fun _ => .ok childFile) 2
    (fresh (.ofIds [.ofName (.ofText "p/A")]) true [.object 1 (.ofText "p.A")])).run []

end Survey

end ClassAtlas
