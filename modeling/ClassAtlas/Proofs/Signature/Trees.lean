import ClassAtlas.Proofs.Signature.Completeness
import ClassAtlas.Proofs.Signature.Gaps

/-!
# Trees and derivations

The texts of trees are those that are derived without gaps, as long as they stand on one line.
So whatever the productions derive is the text of a tree, and is parsed into its classes if it
keeps to the bounds.
-/

namespace ClassAtlas.Signature

namespace Derives

variable {may : Gap → Prop}

theorem flatMap {ι : Type} {symbol : Symbol} (text : ι → List Char) (items : List ι)
    (h : ∀ i ∈ items, Derives may symbol (text i)) :
    Derives may (.many symbol) (items.flatMap text) := by
  induction items with
  | nil => exact .none symbol
  | cons i items ih =>
    obtain ⟨hi, hitems⟩ := List.forall_mem_cons.1 h
    exact .cons hi (ih hitems)

end Derives

/-! ### From trees to derivations -/

theorem Identifier.named (i : Identifier) (may : Gap → Prop) (ends : List Char) :
    Named may ends i.chars :=
  .proper i.nonempty fun c hc h => i.plain c hc (List.mem_append_left ['\n'] h)

theorem derives_packagesText (may : Gap → Prop) (packages : List Identifier) :
    Derives may (.many .package) (packagesText packages) :=
  .flatMap _ packages fun i _ => .package (i.named may _)

mutual

theorem ReferenceType.derives (may : Gap → Prop) : (type : ReferenceType) →
    Derives may .referenceType type.text
  | .ofClass type => .ofClass (type.derives may)
  | .ofVariable name => .ofVariable (.typeVariable (name.named may _))
  | .array element => .array (.present _ (.reference (element.derives may)))
  | .primitiveArray element => .array (.present _ (.primitive element))

theorem ClassType.derives (may : Gap → Prop) : (type : ClassType) →
    Derives may .classType type.text
  | .mk packages first nested =>
    .classType (derives_packagesText may packages) (first.derives may)
      (derives_suffixesText may nested)

theorem derives_suffixesText (may : Gap → Prop) : (nested : List SimpleClass) →
    Derives may (.many .suffix) (suffixesText nested)
  | [] => .none _
  | suffix :: rest => .cons (.suffix (suffix.derives may)) (derives_suffixesText may rest)

theorem SimpleClass.derives (may : Gap → Prop) : (type : SimpleClass) →
    Derives may .simpleClass type.text
  | .mk name [] => by
    have h := Derives.simpleClass (name.named may _) .noArguments
    rwa [List.append_nil] at h
  | .mk name (first :: rest) => by
    have h := Derives.simpleClass (name.named may _) (.arguments (.present _
      (.oneOrMore (first.derives may) (derives_argumentsText may rest))))
    rwa [← List.append_assoc] at h

theorem derives_argumentsText (may : Gap → Prop) : (arguments : List TypeArgument) →
    Derives may (.many .argument) (argumentsText arguments)
  | [] => .none _
  | argument :: rest => .cons (argument.derives may) (derives_argumentsText may rest)

theorem TypeArgument.derives (may : Gap → Prop) : (argument : TypeArgument) →
    Derives may .argument argument.text
  | .any => .anyArgument
  | .type none type => .typeArgument (type.derives may)
  | .type (some wildcard) type => .wildcard wildcard (.present _ (type.derives may))

end

theorem JavaType.derives (may : Gap → Prop) (type : JavaType) :
    Derives may .javaType type.text := by
  cases type with
  | primitive type => exact .primitive type
  | reference type => exact .reference (type.derives may)

theorem TypeParameter.derives (may : Gap → Prop) (p : TypeParameter) :
    Derives may .parameter p.text := by
  obtain ⟨name, classBound, interfaceBounds⟩ := p
  have hclass : Derives may .classBound (':' :: classBound.elim [] ReferenceType.text) := by
    cases classBound with
    | none => exact .noClassBound
    | some type => exact .classBound (type.derives may)
  have hinterfaces : Derives may (.many .interfaceBound)
      (interfaceBounds.flatMap fun bound => ':' :: bound.text) :=
    .flatMap _ interfaceBounds fun type _ => .interfaceBound (.present _ (type.derives may))
  exact .parameter (name.named may _) hclass hinterfaces

theorem derives_parametersText (may : Gap → Prop) (parameters : List TypeParameter) :
    Derives may .parameters (parametersText parameters) := by
  cases parameters with
  | nil => exact .noParameters
  | cons p rest =>
    exact .parameters (.present _ (.oneOrMore (p.derives may)
      (.flatMap _ rest fun q _ => q.derives may)))

theorem Thrown.derives (may : Gap → Prop) (thrown : Thrown) : Derives may .throws thrown.text := by
  cases thrown with
  | ofClass type => exact .throws (.present _ (.thrownClass (type.derives may)))
  | ofVariable name =>
    exact .throws (.present _ (.thrownVariable (.typeVariable (name.named may _))))

/-- The text of a tree is derived, though nothing may be missing. -/
theorem Tree.derives (may : Gap → Prop) (t : Tree) : Derives may (.signature t.kind) t.text := by
  cases t with
  | ofClass s =>
    exact .classSignature (derives_parametersText may s.parameters)
      (.present _ (s.superclass.derives may))
      (.flatMap _ s.interfaces fun type _ => type.derives may)
  | ofField type => exact .fieldSignature (.present _ (type.derives may))
  | ofMethod s =>
    have hresult : Derives may .result (s.result.elim ['V'] JavaType.text) := by
      cases s.result with
      | none => exact .void
      | some type => exact .result (type.derives may)
    exact .methodSignature (derives_parametersText may s.parameters)
      (.flatMap _ s.arguments fun type _ => type.derives may) (.present _ hresult)
      (.flatMap _ s.throws fun thrown _ => thrown.derives may)
  | ofType type => exact .typeSignature (.present _ (type.derives may))

/-! ### From derivations to trees -/

/-- The text of a tree, for each of the symbols. -/
def Symbol.IsTreeText : Symbol → List Char → Prop
  | .javaType, text => ∃ type : JavaType, type.text = text
  | .referenceType, text => ∃ type : ReferenceType, type.text = text
  | .classType, text => ∃ type : ClassType, type.text = text
  | .package, text => ∃ i : Identifier, i.chars ++ ['/'] = text
  | .simpleClass, text => ∃ type : SimpleClass, type.text = text
  | .suffix, text => ∃ type : SimpleClass, '.' :: type.text = text
  | .typeVariable, text => ∃ i : Identifier, 'T' :: i.chars ++ [';'] = text
  | .arguments, text => ∀ i : Identifier, ∃ type : SimpleClass, type.text = i.chars ++ text
  | .argument, text => ∃ argument : TypeArgument, argument.text = text
  | .parameters, text => ∃ parameters, parametersText parameters = text
  | .parameter, text => ∃ p : TypeParameter, p.text = text
  | .classBound, text => ∃ bound : Option ReferenceType,
      ':' :: bound.elim [] ReferenceType.text = text
  | .interfaceBound, text => ∃ bound : ReferenceType, ':' :: bound.text = text
  | .result, text => ∃ result : Option JavaType, result.elim ['V'] JavaType.text = text
  | .thrownType, text => ∃ thrown : Thrown, thrown.text = '^' :: text
  | .throws, text => ∃ thrown : Thrown, thrown.text = text
  | .signature kind, text => ∃ t : Tree, t.kind = kind ∧ t.text = text
  | .many symbol, text => ∃ parts : List (List Char), (∀ part ∈ parts, symbol.IsTreeText part) ∧
      parts.flatten = text
  | .oneOrMore symbol, text => ∃ (first : List Char) (rest : List (List Char)),
      symbol.IsTreeText first ∧ (∀ part ∈ rest, symbol.IsTreeText part) ∧
        first ++ rest.flatten = text
  | .orGap symbol _, text => symbol.IsTreeText text

/-- On one line the text is that of a tree. -/
def Symbol.HasTree (symbol : Symbol) (text : List Char) : Prop :=
  '\n' ∉ text → symbol.IsTreeText text

theorem exists_flatMap {ι : Type} {text : ι → List Char} {parts : List (List Char)}
    (h : ∀ part ∈ parts, ∃ i, text i = part) :
    ∃ items : List ι, items.flatMap text = parts.flatten := by
  induction parts with
  | nil => exact ⟨[], rfl⟩
  | cons part parts ih =>
    obtain ⟨⟨i, hi⟩, hparts⟩ := List.forall_mem_cons.1 h
    obtain ⟨items, hitems⟩ := ih hparts
    exact ⟨i :: items, by rw [List.flatMap_cons, List.flatten_cons, hi, hitems]⟩

theorem suffixesText_eq (nested : List SimpleClass) :
    suffixesText nested = nested.flatMap fun type => '.' :: type.text := by
  induction nested with
  | nil => rfl
  | cons suffix rest ih => rw [suffixesText, ih, List.flatMap_cons]

theorem Named.exists_identifier {ends name : List Char} (h : Named (fun _ => False) ends name)
    (hline : '\n' ∉ name) : ∃ i : Identifier, i.chars = name := by
  cases h with
  | proper hne hplain =>
    refine ⟨⟨name, hne, fun c hc h => ?_⟩, rfl⟩
    rcases List.mem_append.1 (show c ∈ ['.', ';', '[', '/', '<', '>', ':'] ++ ['\n'] from h) with
      h | h
    · exact hplain c hc h
    · exact hline (List.mem_singleton.1 h ▸ hc)
  | improper h => exact h.elim

/-! Each production has a tree if its parts have trees. -/

namespace Symbol.HasTree

variable {symbol : Symbol} {name text first rest : List Char}

theorem behind {c : Char} (h : symbol.HasTree text) (hline : '\n' ∉ c :: text) :
    symbol.IsTreeText text :=
  h fun hmem => hline (List.mem_cons_of_mem c hmem)

theorem both {symbol' : Symbol} (hfirst : symbol.HasTree first) (hrest : symbol'.HasTree rest)
    (hline : '\n' ∉ first ++ rest) : symbol.IsTreeText first ∧ symbol'.IsTreeText rest := by
  simp only [List.mem_append, not_or] at hline
  exact ⟨hfirst hline.1, hrest hline.2⟩

theorem between {c c' : Char} (h : symbol.HasTree text) (hline : '\n' ∉ c :: text ++ [c']) :
    symbol.IsTreeText text := by
  simp only [List.cons_append, List.mem_cons, List.mem_append, not_or] at hline
  exact h hline.2.1

theorem array (h : HasTree .javaType text) : HasTree .referenceType ('[' :: text) := by
  intro hline
  obtain ⟨type, rfl⟩ := h.behind hline
  cases type with
  | primitive type => exact ⟨.primitiveArray type, rfl⟩
  | reference type => exact ⟨.array type, rfl⟩

theorem classType (hpackages : HasTree (.many .package) first) (hname : HasTree .simpleClass name)
    (hnested : HasTree (.many .suffix) rest) :
    HasTree .classType ('L' :: first ++ name ++ rest ++ [';']) := by
  intro hline
  simp only [List.cons_append, List.mem_cons, List.mem_append, not_or] at hline
  obtain ⟨parts, hparts, rfl⟩ := hpackages hline.2.1.1.1
  obtain ⟨type, rfl⟩ := hname hline.2.1.1.2
  obtain ⟨suffixes, hsuffixes, rfl⟩ := hnested hline.2.1.2
  obtain ⟨packages, hpackages⟩ := exists_flatMap hparts
  obtain ⟨nested, hnested⟩ := exists_flatMap hsuffixes
  exact ⟨.mk packages type nested, by
    rw [ClassType.text, packagesText, hpackages, suffixesText_eq, hnested]⟩

theorem arguments (h : HasTree (.oneOrMore .argument) text) :
    HasTree .arguments ('<' :: text ++ ['>']) := by
  intro hline i
  obtain ⟨_, parts, ⟨argument, rfl⟩, hparts, rfl⟩ := h.between hline
  obtain ⟨arguments, harguments⟩ := exists_flatMap hparts
  exact ⟨.mk i (argument :: arguments), by
    simp [SimpleClass.text, argumentsText, argumentsText_eq, harguments]⟩

theorem parameters (h : HasTree (.oneOrMore .parameter) text) :
    HasTree .parameters ('<' :: text ++ ['>']) := by
  intro hline
  obtain ⟨_, parts, ⟨p, rfl⟩, hparts, rfl⟩ := h.between hline
  obtain ⟨parameters, hparameters⟩ := exists_flatMap hparts
  exact ⟨p :: parameters, by simp [parametersText, hparameters]⟩

theorem parameter {ends : List Char} (hname : Named (fun _ => False) ends name)
    (hbound : HasTree .classBound first) (hinterfaces : HasTree (.many .interfaceBound) rest) :
    HasTree .parameter (name ++ first ++ rest) := by
  intro hline
  simp only [List.mem_append, not_or] at hline
  obtain ⟨i, rfl⟩ := hname.exists_identifier hline.1.1
  obtain ⟨bound, rfl⟩ := hbound hline.1.2
  obtain ⟨parts, hparts, rfl⟩ := hinterfaces hline.2
  obtain ⟨interfaces, hinterfaces⟩ := exists_flatMap hparts
  exact ⟨⟨i, bound, interfaces⟩, by rw [TypeParameter.text, hinterfaces]⟩

theorem classSignature (hparameters : HasTree .parameters text)
    (hsuperclass : HasTree .classType first) (hinterfaces : HasTree (.many .classType) rest) :
    HasTree (.signature .ofClass) (text ++ first ++ rest) := by
  intro hline
  simp only [List.mem_append, not_or] at hline
  obtain ⟨parameters, rfl⟩ := hparameters hline.1.1
  obtain ⟨superclass, rfl⟩ := hsuperclass hline.1.2
  obtain ⟨parts, hparts, rfl⟩ := hinterfaces hline.2
  obtain ⟨interfaces, hinterfaces⟩ := exists_flatMap hparts
  exact ⟨.ofClass ⟨parameters, superclass, interfaces⟩, rfl, by rw [Tree.text, hinterfaces]⟩

theorem methodSignature {arguments result : List Char} (hparameters : HasTree .parameters text)
    (harguments : HasTree (.many .javaType) arguments) (hresult : HasTree .result result)
    (hthrows : HasTree (.many .throws) rest) :
    HasTree (.signature .ofMethod) (text ++ '(' :: arguments ++ ')' :: result ++ rest) := by
  intro hline
  simp only [List.mem_cons, List.mem_append, not_or] at hline
  obtain ⟨⟨⟨hline, _, hargumentsLine⟩, _, hresultLine⟩, hthrowsLine⟩ := hline
  obtain ⟨parameters, rfl⟩ := hparameters hline
  obtain ⟨parts, hparts, rfl⟩ := harguments hargumentsLine
  obtain ⟨result, rfl⟩ := hresult hresultLine
  obtain ⟨throwsParts, hthrowsParts, rfl⟩ := hthrows hthrowsLine
  obtain ⟨arguments, harguments⟩ := exists_flatMap hparts
  obtain ⟨throws, hthrows⟩ := exists_flatMap hthrowsParts
  exact ⟨.ofMethod ⟨parameters, arguments, result, throws⟩, rfl, by
    rw [Tree.text, harguments, hthrows]⟩

end Symbol.HasTree

theorem hasTree_of_strict {symbol : Symbol} {text : List Char} (h : Strict symbol text) :
    symbol.HasTree text := by
  induction h with
  | none symbol => exact fun _ => ⟨[], by simp, rfl⟩
  | cons _ _ ihFirst ihRest =>
    intro hline
    obtain ⟨hfirst, parts, hparts, rfl⟩ := ihFirst.both ihRest hline
    exact ⟨_ :: parts, List.forall_mem_cons.2 ⟨hfirst, hparts⟩, rfl⟩
  | oneOrMore _ _ ihFirst ihRest =>
    intro hline
    obtain ⟨hfirst, parts, hparts, rfl⟩ := ihFirst.both ihRest hline
    exact ⟨_, parts, hfirst, hparts, rfl⟩
  | present gap _ ih => exact ih
  | missing _ h => exact h.elim
  | primitive type => exact fun _ => ⟨.primitive type, rfl⟩
  | reference _ ih => exact fun hline => (ih hline).imp' .reference fun _ h => h
  | ofClass _ ih => exact fun hline => (ih hline).imp' .ofClass fun _ h => h
  | ofVariable _ ih => exact fun hline => (ih hline).imp' .ofVariable fun _ h => h
  | array _ ih => exact .array ih
  | typeVariable h =>
    intro hline
    obtain ⟨i, rfl⟩ := h.exists_identifier (by simp at hline; tauto)
    exact ⟨i, rfl⟩
  | classType _ _ _ ihPackages ihFirst ihNested => exact .classType ihPackages ihFirst ihNested
  | package h =>
    intro hline
    obtain ⟨i, rfl⟩ := h.exists_identifier (by simp at hline; tauto)
    exact ⟨i, rfl⟩
  | simpleClass hname _ ih =>
    intro hline
    simp only [List.mem_append, not_or] at hline
    obtain ⟨i, rfl⟩ := hname.exists_identifier hline.1
    exact ih hline.2 i
  | suffix _ ih => exact fun hline => (ih.behind hline).imp fun _ h => congrArg _ h
  | noArguments => exact fun _ i => ⟨.mk i [], by simp [SimpleClass.text]⟩
  | arguments _ ih => exact .arguments ih
  | anyArgument => exact fun _ => ⟨.any, rfl⟩
  | typeArgument _ ih => exact fun hline => (ih hline).imp' (.type none) fun _ h => h
  | wildcard direction _ ih =>
    exact fun hline => (ih.behind hline).imp' (.type (some direction)) fun _ h => congrArg _ h
  | noParameters => exact fun _ => ⟨[], rfl⟩
  | parameters _ ih => exact .parameters ih
  | parameter hname _ _ ihBound ihInterfaces => exact .parameter hname ihBound ihInterfaces
  | noClassBound => exact fun _ => ⟨none, rfl⟩
  | classBound _ ih => exact fun hline => (ih.behind hline).imp' some fun _ h => congrArg _ h
  | interfaceBound _ ih => exact fun hline => (ih.behind hline).imp fun _ h => congrArg _ h
  | void => exact fun _ => ⟨none, rfl⟩
  | result _ ih => exact fun hline => (ih hline).imp' some fun _ h => h
  | thrownClass _ ih => exact fun hline => (ih hline).imp' .ofClass fun _ h => congrArg _ h
  | thrownVariable _ ih => exact fun hline => (ih hline).imp' .ofVariable fun _ h => congrArg _ h
  | throws _ ih => exact fun hline => ih.behind hline
  | classSignature _ _ _ ihParameters ihSuperclass ihInterfaces =>
    exact .classSignature ihParameters ihSuperclass ihInterfaces
  | fieldSignature _ ih => exact fun hline => (ih hline).imp' .ofField fun _ h => ⟨rfl, h⟩
  | methodSignature _ _ _ _ ihParameters ihArguments ihResult ihThrows =>
    exact .methodSignature ihParameters ihArguments ihResult ihThrows
  | typeSignature _ ih => exact fun hline => (ih hline).imp' .ofType fun _ h => ⟨rfl, h⟩

/-- Nothing is derived without gaps but the texts of trees, and these all are. -/
theorem strict_iff_exists_tree {kind : SignatureKind} {text : List Char} (hline : '\n' ∉ text) :
    Strict (.signature kind) text ↔ ∃ t : Tree, t.kind = kind ∧ t.text = text := by
  constructor
  · exact fun h => hasTree_of_strict h hline
  · rintro ⟨t, rfl, rfl⟩
    exact t.derives _

/-- A text that is derived without gaps is parsed into the classes of one of its trees, if the
tree keeps to the bounds. -/
theorem exists_parse_of_strict {kind : SignatureKind} {text : List Char} (hline : '\n' ∉ text)
    (h : Strict (.signature kind) text) (hsize : (String.ofList text).utf8ByteSize ≤ 200000) :
    ∃ t : Tree, t.kind = kind ∧ t.text = text ∧
      (t.IsBounded → t.depth ≤ 256 → parse kind (String.ofList text) = ⟨t.classes, none⟩) := by
  obtain ⟨t, rfl, rfl⟩ := (strict_iff_exists_tree hline).1 h
  exact ⟨t, rfl, rfl, fun hbounded hdepth =>
    parse_of_reads (reads_production t hbounded hdepth) (by rwa [bytes_eq_utf8ByteSize])⟩

end ClassAtlas.Signature
