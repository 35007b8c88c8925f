import ClassAtlas.Proofs.ClassId.Forms

/-!
# Dimensions

Every type is an array of its core, the type below which there is no other with an identity:
the class itself, or the array of primitives with one dimension. So what holds of dimensions
that are added to a type and taken away again follows from `arrayOf` alone, for both kinds of
types at once. Only the number of dimensions differs, since the core of an array of primitives
has one of its own.
-/

namespace ClassAtlas.ClassId

variable (id : ClassId)

/-- The type at the bottom that has an identity. -/
def core : ClassId → ClassId
  | object _ n => ofName n
  | primitive _ p => primitive 0 p

def layers : ClassId → Nat
  | object d _ => d
  | primitive f _ => f

/-- The type that is left after so many steps from a type to its elements. -/
def elementAt? : Nat → ClassId → Option ClassId
  | 0, id => some id
  | steps + 1, id => id.element?.bind (elementAt? steps)

/-- The steps from a type to its elements come to an end at the type `last`, and not before. -/
def EndsAt (id : ClassId) (steps : Nat) (last : ClassId) : Prop :=
  id.elementAt? steps = some last ∧ last.element? = none

/-- The type `deep` is `id` with `more` dimensions, and differs from it in nothing else. A class
gets the letter and the semicolon of an array with its first dimension. -/
structure IsDeepened (id : ClassId) (more : Nat) (deep : ClassId) : Prop where
  dimensions_eq : deep.dimensions = id.dimensions + more
  isPrimitive_eq : deep.isPrimitive = id.isPrimitive
  isAnonymous_eq : deep.isAnonymous = id.isAnonymous
  segments_eq : deep.segments = id.segments
  text_eq : deep.text.toList = brackets more ++
    if more = 0 ∨ id.isArray = true then id.text.toList else 'L' :: id.text.toList ++ [';']

/-! ### Adding dimensions -/

@[simp] theorem arrayOf_zero : id.arrayOf 0 = id := by
  cases id <;> rfl

theorem arrayOf_arrayOf (m n : Nat) : (id.arrayOf m).arrayOf n = id.arrayOf (m + n) := by
  cases id <;> simp [arrayOf, Nat.add_assoc]

theorem brackets_add (m n : Nat) : brackets (m + n) = brackets m ++ brackets n :=
  List.replicate_add m n '['

theorem body_arrayOf (more : Nat) : (id.arrayOf more).body =
    if more = 0 ∨ id.isArray = true then id.body else 'L' :: id.body ++ [';'] := by
  match id, more with
  | id, 0 => simp
  | object 0 n, more + 1 => simp [arrayOf, body, isArray, dimensions]
  | object (d + 1) n, more + 1 => simp [arrayOf, Nat.succ_add, body, isArray, dimensions]
  | primitive f p, more + 1 => simp [arrayOf, body, isArray, dimensions]

theorem isDeepened_arrayOf (more : Nat) : id.IsDeepened more (id.arrayOf more) where
  dimensions_eq := dimensions_arrayOf more id
  isPrimitive_eq := by cases id <;> rfl
  isAnonymous_eq := by cases id <;> rfl
  segments_eq := by cases id <;> rfl
  text_eq := by
    rw [toList_text, dimensions_arrayOf, Nat.add_comm, brackets_add, List.append_assoc,
      body_arrayOf]
    split
    · rw [toList_text]
    · next hclass =>
      have hdimensions : id.dimensions = 0 := by simpa [isArray] using (not_or.1 hclass).2
      rw [toList_text, hdimensions]
      rfl

theorem base?_arrayOf (more : Nat) : (id.arrayOf more).base? = id.base? := by
  rw [base?, className?_arrayOf, base?]

theorem innermost?_arrayOf (more : Nat) (h : id.isArray = true) :
    (id.arrayOf more).innermost? = id.innermost? := by
  match id with
  | object 0 n => simp [isArray, dimensions] at h
  | object (d + 1) n => simp [arrayOf, Nat.succ_add, innermost?]
  | primitive f p => rfl

/-! ### Taking dimensions away -/

theorem element?_arrayOf_succ (n : Nat) :
    (id.arrayOf (n + 1)).element? = some (id.arrayOf n) := by
  cases id <;> rfl

@[simp] theorem element?_core : id.core.element? = none := by
  cases id <;> rfl

theorem arrayOf_layers_core : id.core.arrayOf id.layers = id := by
  cases id <;> simp [core, layers, arrayOf]

theorem elementAt?_arrayOf (n steps : Nat) :
    (id.arrayOf (n + steps)).elementAt? steps = some (id.arrayOf n) := by
  induction steps with
  | zero => rfl
  | succ steps ih =>
    change (id.arrayOf ((n + steps) + 1)).element?.bind (elementAt? steps) = _
    rw [element?_arrayOf_succ, Option.bind_some, ih]

theorem elementAt?_add (m n : Nat) :
    id.elementAt? (m + n) = (id.elementAt? m).bind (elementAt? n) := by
  induction m generalizing id with
  | zero => rw [Nat.zero_add]; rfl
  | succ m ih =>
    rw [Nat.succ_add]
    change id.element?.bind (elementAt? (m + n)) = (id.element?.bind (elementAt? m)).bind _
    cases id.element? with
    | none => rfl
    | some next => exact ih next

theorem elementAt?_layers : id.elementAt? id.layers = some id.core := by
  have h := elementAt?_arrayOf id.core 0 id.layers
  rwa [Nat.zero_add, arrayOf_layers_core, arrayOf_zero] at h

/-- On the way to its core every type has elements, and the core has none. -/
theorem endsAt_iff {steps : Nat} {last : ClassId} :
    id.EndsAt steps last ↔ steps = id.layers ∧ last = id.core := by
  constructor
  · rintro ⟨hlast, hnone⟩
    have hle : steps ≤ id.layers := by
      by_contra hlt
      obtain ⟨more, rfl⟩ := Nat.exists_eq_add_of_lt (Nat.lt_of_not_le hlt)
      rw [Nat.add_assoc, elementAt?_add, elementAt?_layers] at hlast
      change id.core.element?.bind _ = _ at hlast
      rw [element?_core] at hlast
      cases hlast
    obtain ⟨left, hleft⟩ := Nat.exists_eq_add_of_le hle
    have hreached := elementAt?_arrayOf id.core left steps
    rw [Nat.add_comm, ← hleft, arrayOf_layers_core, hlast, Option.some.injEq] at hreached
    cases left with
    | zero => exact ⟨hleft.symm, by rw [hreached, arrayOf_zero]⟩
    | succ left =>
      rw [hreached, element?_arrayOf_succ] at hnone
      cases hnone
  · rintro ⟨rfl, rfl⟩
    exact ⟨id.elementAt?_layers, id.element?_core⟩

/-- Dimensions that are added to a type add up and are taken away again one by one, and nothing
else of the type changes with them. The elements of the elements of a type come to an end: for
classes and arrays of classes at the class, after as many steps as there are dimensions, and for
arrays of primitives one step before, at the array with one dimension. -/
theorem arrayOf_unfolds :
    (∀ m, id.IsDeepened m (id.arrayOf m)) ∧
      (∀ m n, (id.arrayOf m).arrayOf n = id.arrayOf (m + n)) ∧
      (∀ n, (id.arrayOf (n + 1)).element? = some (id.arrayOf n)) ∧
      (id.isArray = true → ∀ m, (id.arrayOf m).base? = id.base? ∧
        (id.arrayOf m).innermost? = id.innermost?) ∧
      (id.isPrimitive = false → ∃ last, id.base? = some last ∧
        ∀ steps other, id.EndsAt steps other ↔ steps = id.dimensions ∧ other = last) ∧
      (id.isPrimitive = true → ∃ last, last.isPrimitive = true ∧ last.dimensions = 1 ∧
        last.segments = id.segments ∧ last.element? = none ∧
        ∀ steps other, id.EndsAt steps other ↔ steps + 1 = id.dimensions ∧ other = last) := by
  refine ⟨id.isDeepened_arrayOf, id.arrayOf_arrayOf, id.element?_arrayOf_succ, fun harray m =>
    ⟨id.base?_arrayOf m, id.innermost?_arrayOf m harray⟩, fun hclass => ?_, fun hprimitive => ?_⟩
  · match id with
    | object d n => exact ⟨ofName n, rfl, fun steps other => endsAt_iff _⟩
  · match id with
    | primitive f p =>
      refine ⟨primitive 0 p, rfl, rfl, rfl, rfl, fun steps other => ?_⟩
      rw [endsAt_iff]
      exact and_congr_left fun _ => (Nat.add_left_inj (n := 1)).symm

/-- The arrays `[[[I` and `[[La/B;` lead to `[I` and to `a/B`. -/
theorem arrayOf_unfolds_arrays :
    ((∃ last, last.segments = ["I"] ∧
        ∀ steps other, (primitive 2 .int).EndsAt steps other ↔ steps + 1 = 3 ∧ other = last) ∧
      ∀ m, ((primitive 2 .int).arrayOf m).innermost? = none) ∧
      ∃ last, some last = (object 2 (.ofText "a/B")).base? ∧
        (object 2 (.ofText "a/B")).EndsAt 2 last := by
  obtain ⟨-, -, -, hbottom, -, hints⟩ := arrayOf_unfolds (primitive 2 .int)
  obtain ⟨-, -, -, -, hobjects, -⟩ := arrayOf_unfolds (object 2 (.ofText "a/B"))
  obtain ⟨last, -, -, hsegments, -, hends⟩ := hints rfl
  obtain ⟨bottom, hbase, hleads⟩ := hobjects rfl
  exact ⟨⟨⟨last, hsegments.trans rfl, hends⟩, fun m => (hbottom rfl m).2⟩, bottom, hbase.symm,
    (hleads 2 bottom).2 ⟨rfl, rfl⟩⟩

end ClassAtlas.ClassId
