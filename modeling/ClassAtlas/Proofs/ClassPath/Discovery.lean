import Mathlib.Algebra.BigOperators.Group.List.Basic
import ClassAtlas.Proofs.ClassFile.Frame
import ClassAtlas.Proofs.ClassId.WrittenForm
import ClassAtlas.Proofs.ClassPath.Files
import ClassAtlas.Proofs.Plan.Loading

/-!
# The discovery of classes

A class file below a root has packages, which are the names of the directories on the way,
and a stem, which is its own name without the suffix. Discovery writes these with slashes
between them and reads the text as a class. This leads back to the file when the text is
plain: it has no dot, which would separate packages, no bracket in front, which would make it an
array, and no newline but in front. The classes discovered below a root are those of the class
files there, each once, exactly if the texts of all of them are plain.
-/

namespace ClassAtlas

/-- The place of a class file below a root: the names of the directories on the way, and its own
name without the suffix. -/
structure ClassPlace where
  packages : List String
  stem : String
deriving DecidableEq

namespace ClassPlace

def location (place : ClassPlace) : Location :=
  place.packages ++ [place.stem ++ ".class"]

def text (place : ClassPlace) : String :=
  "/".intercalate (place.packages ++ [place.stem])

def pathBelow (root : String) (place : ClassPlace) : String :=
  place.location.foldl Path.push root

/-- The text of the place is read as that of a class with these packages and this stem. -/
structure IsPlain (place : ClassPlace) : Prop where
  dotless : '.' ∉ place.text.toList
  bracketless : place.text.toList.head? ≠ some '['
  oneLine : '\n' ∉ place.text.toList.tail

instance (place : ClassPlace) : Decidable place.IsPlain :=
  decidable_of_iff ('.' ∉ place.text.toList ∧ place.text.toList.head? ≠ some '[' ∧
      '\n' ∉ place.text.toList.tail)
    ⟨fun ⟨a, b, c⟩ => ⟨a, b, c⟩, fun ⟨a, b, c⟩ => ⟨a, b, c⟩⟩

/-- The text that discovery makes of the place, where a stem of one dot is taken for the directory
above. -/
def shownText (place : ClassPlace) : String :=
  "/".intercalate (place.packages ++ [if place.stem = "." then ".." else place.stem])

end ClassPlace

namespace FileTree

variable {t : FileTree} {root : String} {top : Location} {place : ClassPlace}

/-- There is a class file at a place below `top`. -/
def HasClassFile (t : FileTree) (top : Location) (place : ClassPlace) : Prop :=
  place.stem ≠ "" ∧ ∃ content, t.nodes[top ++ place.location]? = some (.file content)

/-- The classes discovered below a root are those of the class files there: the paths of the
former are the paths of the latter, and no path is that of two classes. -/
structure DiscoversExactly (t : FileTree) (root : String) (top : Location)
    (ids : List ClassId) : Prop where
  found : t.discover root = .ok ids
  nodup : (ids.map fun id => id.pathBelow? .binary root).Nodup
  mem_iff (path : Option String) : path ∈ ids.map (fun id => id.pathBelow? .binary root) ↔
    ∃ place, t.HasClassFile top place ∧ path = some (place.pathBelow root)

/-! ### Class files and their texts -/

theorem classFileStem?_append {stem : String} (h : stem ≠ "") :
    classFileStem? (stem ++ ".class") = some (if stem = "." then ".." else stem) := by
  have hreverse : (stem ++ ".class").toList.reverse =
      ['s', 's', 'a', 'l', 'c'] ++ '.' :: stem.toList.reverse := by simp
  have hdot : stem.toList = ['.'] ↔ stem = "." := by
    rw [← String.toList_inj]
    rfl
  unfold classFileStem?
  rw [hreverse, List.span_eq_takeWhile_dropWhile]
  by_cases hstem : stem = "."
  · simp [hstem]
  · simp [h, hdot, hstem]

theorem exists_of_classFileStem? {name found : String} (h : classFileStem? name = some found) :
    ∃ stem, stem ≠ "" ∧ name = stem ++ ".class" := by
  have hsplit : name.toList.reverse.takeWhile (· != '.') ++ name.toList.reverse.dropWhile (· != '.') =
      name.toList.reverse := List.takeWhile_append_dropWhile
  unfold classFileStem? at h
  rw [List.span_eq_takeWhile_dropWhile] at h
  split at h
  · next stem hspan =>
    obtain ⟨hsuffix, hstem⟩ := Prod.mk.inj hspan
    rw [hsuffix, hstem] at hsplit
    have hne : stem ≠ [] := by
      rintro rfl
      simp at h
    refine ⟨String.ofList stem.reverse, by simpa using hne, ?_⟩
    apply String.toList_inj.1
    rw [← List.reverse_inj, ← hsplit]
    simp
  · contradiction

def placeAt? (location : Location) : Option ClassPlace := do
  let name ← location.getLast?
  let _ ← classFileStem? name
  return ⟨location.dropLast, String.ofList (name.toList.reverse.drop 6).reverse⟩

theorem placeAt?_location (h : place.stem ≠ "") : placeAt? place.location = some place := by
  have hstem : String.ofList ((place.stem ++ ".class").toList.reverse.drop 6).reverse =
      place.stem := by simp
  unfold placeAt? ClassPlace.location
  rw [List.getLast?_concat, List.dropLast_concat]
  simp only [Option.bind_eq_bind, Option.bind_some, classFileStem?_append h, hstem]
  rfl

theorem eq_location_of_placeAt? {location : Location} (h : placeAt? location = some place) :
    place.stem ≠ "" ∧ location = place.location := by
  obtain ⟨name, hname, hrest⟩ := Option.bind_eq_some_iff.1 h
  obtain ⟨found, hfound, -⟩ := Option.bind_eq_some_iff.1 hrest
  obtain ⟨stem, hstem, rfl⟩ := exists_of_classFileStem? hfound
  obtain ⟨packages, rfl⟩ := List.getLast?_eq_some_iff.1 hname
  have hplace := @placeAt?_location ⟨packages, stem⟩ hstem
  change placeAt? (packages ++ [stem ++ ".class"]) = _ at hplace
  rw [hplace, Option.some.injEq] at h
  subst h
  exact ⟨hstem, rfl⟩

theorem classTextAt?_eq (location : Location) :
    classTextAt? location = (placeAt? location).map ClassPlace.shownText := by
  unfold classTextAt?
  rcases List.eq_nil_or_concat' location with rfl | ⟨packages, name, rfl⟩
  · rfl
  · rw [List.getLast?_concat, List.dropLast_concat]
    cases hfound : classFileStem? name with
    | none => simp [placeAt?, hfound]
    | some found =>
      obtain ⟨stem, hstem, rfl⟩ := exists_of_classFileStem? hfound
      have hplace := @placeAt?_location ⟨packages, stem⟩ hstem
      change placeAt? (packages ++ [stem ++ ".class"]) = _ at hplace
      rw [hplace]
      simp only [Option.bind_eq_bind, Option.bind_some, classFileStem?_append hstem]
      rfl

def places (t : FileTree) (top : Location) : List ClassPlace :=
  (t.filesBelow top).filterMap fun (location, _) => placeAt? location

theorem mem_places : place ∈ t.places top ↔ t.HasClassFile top place := by
  unfold places HasClassFile
  rw [List.mem_filterMap]
  constructor
  · rintro ⟨⟨location, content⟩, hfile, hplace⟩
    obtain ⟨hstem, rfl⟩ := eq_location_of_placeAt? hplace
    exact ⟨hstem, content, mem_filesBelow.1 hfile⟩
  · rintro ⟨hstem, content, hfile⟩
    exact ⟨(place.location, content), mem_filesBelow.2 hfile, placeAt?_location hstem⟩

theorem nodup_places (t : FileTree) (top : Location) : (t.places top).Nodup := by
  have hfiles := t.nodup_filesBelow top
  unfold places
  rw [List.Nodup, List.pairwise_map] at hfiles
  rw [List.Nodup, List.pairwise_filterMap]
  refine hfiles.imp ?_
  intro first second hne a ha b hb hab
  apply hne
  rw [(eq_location_of_placeAt? ha).2, (eq_location_of_placeAt? hb).2, hab]

theorem discover_eq (h : t.resolve root = .ok top) : t.discover root = (do
    return (← ((t.places top).map ClassPlace.shownText).mapM ClassId.parse).mergeSort
      fun a b => a.text ≤ b.text) := by
  have htexts : (t.filesBelow top).filterMap (fun (location, _) => classTextAt? location) =
      (t.places top).map ClassPlace.shownText := by
    unfold places
    rw [List.map_filterMap]
    exact List.filterMap_congr fun file _ => classTextAt?_eq file.1
  unfold discover
  rw [h]
  dsimp only
  rw [htexts]

end FileTree

/-! ### Reading the texts -/

namespace ClassId

theorem ofText?_eq_plain? {text : String} (h : text.toList.head? ≠ some '[') :
    ofText? text = plain? text.toList := by
  unfold ofText?
  rw [List.span_eq_takeWhile_dropWhile]
  cases hchars : text.toList with
  | nil => rfl
  | cons c rest =>
    have hc : (c == '[') = false := by simpa [hchars] using h
    simp [hc]

theorem plain?_eq_some_ofName {chars : List Char} {n : ClassName} :
    plain? chars = some (.ofName n) ↔
      chars ≠ [] ∧ '\n' ∉ chars.tail ∧ n = .ofText (String.ofList chars) := by
  cases chars with
  | nil => simp [plain?]
  | cons c rest =>
    rw [plain?]
    by_cases hline : '\n' ∈ rest
    · simp [hline]
    · simp [hline, eq_comm]

/-- What is read as a class and no array: a text that does not start like an array, with a newline
in front at most. -/
theorem ofText?_eq_some_ofName {text : String} {n : ClassName} :
    ofText? text = some (.ofName n) ↔ text ≠ "" ∧ text.toList.head? ≠ some '[' ∧
      '\n' ∉ text.toList.tail ∧ n = .ofText text := by
  by_cases hfront : text.toList.head? = some '['
  · constructor
    · intro h
      exact absurd rfl (dimensions_ne_zero_of_ofText? h hfront)
    · rintro ⟨-, hno, -⟩
      contradiction
  · rw [ofText?_eq_plain? hfront, plain?_eq_some_ofName, String.ofList_toList]
    simp [hfront]

end ClassId

/-- No segment of a class name has a dot, so the path below a root has one more dot than the
root. -/
theorem ClassName.count_dot_pathBelow (n : ClassName) (root : String) :
    (n.pathBelow .binary root).toList.count '.' = root.toList.count '.' + 1 := by
  have hnone := n.sum_count_dot_segments
  have hsuffix : FileKind.binary.suffix.toList.count '.' = 1 := rfl
  rw [← packages_append_lastSegment] at hnone
  have hslash : ∀ step ∈ n.packages ++ [n.lastSegment ++ FileKind.binary.suffix],
      '/' ∉ step.toList :=
    List.forall_mem_append.2 ⟨n.slash_notMem_packages,
      List.forall_mem_singleton.2 (n.slash_notMem_fileName .binary)⟩
  rw [pathBelow_eq_foldl, Path.count_foldl_push (by decide) hslash]
  simp only [List.map_append, List.map_singleton, List.sum_append, List.sum_singleton,
    String.toList_append, List.count_append, hsuffix] at hnone ⊢
  omega

namespace ClassPlace

variable {place : ClassPlace}

def dots (place : ClassPlace) : Nat :=
  ((place.packages ++ [place.stem]).map fun name => name.toList.count '.').sum

theorem count_dot_text (place : ClassPlace) : place.text.toList.count '.' = place.dots :=
  Path.count_intercalate (by decide) _

theorem count_dot_pathBelow (h : ∀ name ∈ place.location, '/' ∉ name.toList) (root : String) :
    (place.pathBelow root).toList.count '.' = root.toList.count '.' + 1 + place.dots := by
  have hsuffix : ".class".toList.count '.' = 1 := rfl
  rw [pathBelow, Path.count_foldl_push (by decide) h, location, dots]
  simp only [List.map_append, List.map_singleton, List.sum_append, List.sum_singleton,
    String.toList_append, List.count_append, hsuffix]
  omega

theorem dotless_iff : '.' ∉ place.text.toList ↔ place.dots = 0 := by
  rw [← List.count_eq_zero, count_dot_text]

theorem shownText_of_dots_eq_zero (h : place.dots = 0) : place.shownText = place.text := by
  have hstem : place.stem ≠ "." := by
    intro hdot
    simp [dots, hdot] at h
  rw [shownText, if_neg hstem, text]

theorem stepsOf_text (hnames : ∀ name ∈ place.packages ++ [place.stem], '/' ∉ name.toList) :
    FileTree.stepsOf place.text = place.packages ++ [place.stem] :=
  FileTree.stepsOf_intercalate (by simp) hnames

theorem pathBelow_ofText (hplain : place.IsPlain)
    (hnames : ∀ name ∈ place.packages ++ [place.stem], '/' ∉ name.toList) (root : String) :
    (ClassName.ofText place.text).pathBelow .binary root = place.pathBelow root := by
  have htext : (ClassName.ofText place.text).text = place.text :=
    congrArg ClassName.text (ClassName.ofText_text ⟨place.text, hplain.dotless⟩)
  have hsegments : (ClassName.ofText place.text).segments = place.packages ++ [place.stem] := by
    rw [ClassName.segments_eq_stepsOf, htext, stepsOf_text hnames]
  rw [ClassName.pathBelow_eq_foldl, ClassName.packages, ClassName.lastSegment, hsegments,
    List.dropLast_concat, List.getLastD_concat]
  rfl

theorem parse_shownText (hplain : place.IsPlain) (hstem : place.stem ≠ "")
    (hnames : ∀ name ∈ place.packages ++ [place.stem], '/' ∉ name.toList) :
    ClassId.parse place.shownText = .ok (.ofName (.ofText place.text)) := by
  rw [shownText_of_dots_eq_zero (dotless_iff.1 hplain.dotless), ClassId.parse_eq_ok,
    ClassId.ofText?_eq_some_ofName]
  refine ⟨?_, hplain.bracketless, hplain.oneLine, rfl⟩
  intro hempty
  have hsteps := stepsOf_text hnames
  rw [hempty, FileTree.stepsOf_empty, ← List.nil_append [""]] at hsteps
  have hlast := (List.append_inj' hsteps rfl).2
  exact hstem (List.singleton_inj.1 hlast).symm

end ClassPlace

namespace FileTree

variable {t : FileTree} {root : String} {top : Location} {place : ClassPlace}

theorem HasClassFile.isName (h : t.HasClassFile top place) (ht : t.IsProper) :
    ∀ name ∈ place.location, IsName name := by
  obtain ⟨-, content, hfile⟩ := h
  intro name hname
  exact ht.isName hfile name (List.mem_append_right _ hname)

theorem HasClassFile.slash_notMem (h : t.HasClassFile top place) (ht : t.IsProper) :
    ∀ name ∈ place.packages ++ [place.stem], '/' ∉ name.toList := by
  intro name hname
  rcases List.mem_append.1 hname with hname | hname
  · exact (h.isName ht name (List.mem_append_left _ hname)).slash_notMem
  · rw [List.mem_singleton.1 hname]
    have hlast := (h.isName ht (place.stem ++ ".class") (by simp [ClassPlace.location])).slash_notMem
    intro hslash
    exact hlast (by simp [hslash])

/-- Different class files below a root have different paths. -/
theorem HasClassFile.eq_of_pathBelow {other : ClassPlace} (h : t.HasClassFile top place)
    (hother : t.HasClassFile top other) (ht : t.IsProper)
    (hpath : place.pathBelow root = other.pathBelow root) : place = other := by
  have hlocation := foldl_push_inj (h.isName ht) (hother.isName ht) (by simp [ClassPlace.location])
    (by simp [ClassPlace.location]) hpath
  obtain ⟨hpackages, hlast⟩ := List.append_inj' hlocation rfl
  have hstem : place.stem = other.stem := by simpa using hlast
  cases place
  cases other
  simp_all

theorem nodup_paths (ht : t.IsProper) (root : String) (top : Location) :
    ((t.places top).map fun place => some (place.pathBelow root)).Nodup := by
  refine (t.nodup_places top).map_on fun a ha b hb hab => ?_
  exact (mem_places.1 ha).eq_of_pathBelow (mem_places.1 hb) ht (Option.some.inj hab)

/-- Discovery finds the class of every class file below the root when all texts are plain. -/
theorem discoversExactly_of_isPlain (ht : t.IsProper) (hroot : t.resolve root = .ok top)
    (hplain : ∀ place, t.HasClassFile top place → place.IsPlain) :
    ∃ ids, t.DiscoversExactly root top ids ∧
      ids.Perm ((t.places top).map fun place => .ofName (.ofText place.text)) := by
  have hparsed : ((t.places top).map ClassPlace.shownText).mapM ClassId.parse =
      .ok ((t.places top).map fun place => .ofName (.ofText place.text)) := by
    rw [mapM_eq_ok_iff, List.forall₂_map_left_iff, List.forall₂_map_right_iff,
      List.forall₂_same]
    intro place hplace
    have hfile := mem_places.1 hplace
    exact ClassPlace.parse_shownText (hplain place hfile) hfile.1 (hfile.slash_notMem ht)
  let ids := ((t.places top).map fun place => ClassId.ofName (.ofText place.text)).mergeSort
    fun a b => a.text ≤ b.text
  have hperm : ids.Perm ((t.places top).map fun place => .ofName (.ofText place.text)) :=
    List.mergeSort_perm _ _
  have hpaths : (ids.map fun id => id.pathBelow? .binary root).Perm
      ((t.places top).map fun place => some (place.pathBelow root)) := by
    refine (hperm.map _).trans (.of_eq ?_)
    rw [List.map_map]
    refine List.map_congr_left fun place hplace => ?_
    have hfile := mem_places.1 hplace
    exact congrArg some (ClassPlace.pathBelow_ofText (hplain place hfile) (hfile.slash_notMem ht)
      root)
  refine ⟨ids, ⟨?_, hpaths.nodup_iff.2 (nodup_paths ht root top), fun path => ?_⟩, hperm⟩
  · rw [discover_eq hroot, hparsed]
    rfl
  · rw [hpaths.mem_iff, List.mem_map]
    simp only [mem_places, eq_comm]

/-- The paths of classes have a dot for the suffix only, so places with the same paths, in any
order, have no dots of their own. -/
theorem dots_eq_zero_of_perm {parsed : List ClassId} {files : List ClassPlace}
    (h : (parsed.map fun id => id.pathBelow? .binary root).Perm
      (files.map fun place => some (place.pathBelow root)))
    (hclass : ∀ id ∈ parsed, ∃ n, id = .ofName n)
    (hslash : ∀ place ∈ files, ∀ name ∈ place.location, '/' ∉ name.toList)
    (hplace : place ∈ files) : place.dots = 0 := by
  let dotsOf (path : Option String) : Nat := (path.getD "").toList.count '.'
  have hparsed : (parsed.map fun id => dotsOf (id.pathBelow? .binary root)) =
      parsed.map fun _ => root.toList.count '.' + 1 := by
    refine List.map_congr_left fun id hid => ?_
    obtain ⟨n, rfl⟩ := hclass id hid
    exact n.count_dot_pathBelow root
  have hfiles : (files.map fun place => dotsOf (some (place.pathBelow root))) =
      files.map fun place => root.toList.count '.' + 1 + place.dots :=
    List.map_congr_left fun place hplace => place.count_dot_pathBelow (hslash place hplace) root
  have hlength := h.length_eq
  rw [List.length_map, List.length_map] at hlength
  -- As many paths on both sides, and as many dots in all of them together.
  have hsum := (h.map dotsOf).sum_eq
  rw [List.map_map, List.map_map] at hsum
  change (parsed.map fun id => dotsOf (id.pathBelow? .binary root)).sum =
    (files.map fun place => dotsOf (some (place.pathBelow root))).sum at hsum
  rw [hparsed, hfiles] at hsum
  generalize root.toList.count '.' + 1 = one at hsum
  rw [List.sum_map_add, List.map_const', List.map_const', hlength] at hsum
  have hzero : (files.map ClassPlace.dots).sum = 0 := Nat.left_eq_add.1 hsum
  exact List.sum_eq_zero_iff_forall_eq_nat.1 hzero _ (List.mem_map_of_mem hplace)

/-- Where discovery finds the class of every class file, no text has a dot. -/
theorem isPlain_of_discoversExactly (ht : t.IsProper) (hroot : t.resolve root = .ok top)
    {ids : List ClassId} (h : t.DiscoversExactly root top ids) (hfile : t.HasClassFile top place) :
    place.IsPlain := by
  have hfound := h.found
  rw [discover_eq hroot, bind_eq_ok_iff] at hfound
  obtain ⟨parsed, hparsed, hsorted⟩ := hfound
  have hids : ids.Perm parsed := by
    rw [← Except.ok.inj hsorted]
    exact List.mergeSort_perm _ _
  have hpaths : (parsed.map fun id => id.pathBelow? .binary root).Perm
      ((t.places top).map fun place => some (place.pathBelow root)) := by
    refine (hids.symm.map _).trans ?_
    rw [List.perm_ext_iff_of_nodup h.nodup (nodup_paths ht root top)]
    intro path
    rw [h.mem_iff, List.mem_map]
    simp only [mem_places, eq_comm]
  have hclass (id : ClassId) (hid : id ∈ parsed) : ∃ n, id = .ofName n := by
    have hpath := hpaths.mem_iff.1 (List.mem_map_of_mem hid)
    obtain ⟨other, -, hother⟩ := List.mem_map.1 hpath
    obtain ⟨n, hn, -⟩ := ClassId.exists_of_pathBelow? hother.symm
    exact ⟨n, hn⟩
  have hslash (other : ClassPlace) (hother : other ∈ t.places top) (name : String)
      (hname : name ∈ other.location) : '/' ∉ name.toList :=
    ((mem_places.1 hother).isName ht name hname).slash_notMem
  have hdots : place.dots = 0 :=
    dots_eq_zero_of_perm hpaths hclass hslash (mem_places.2 hfile)
  obtain ⟨id, hread⟩ := exists_mapM_iff.1 ⟨parsed, hparsed⟩ place.shownText
    (List.mem_map_of_mem (mem_places.2 hfile))
  have hid : id ∈ parsed :=
    (mem_of_mapM hparsed id).2 ⟨_, List.mem_map_of_mem (mem_places.2 hfile), hread⟩
  obtain ⟨n, rfl⟩ := hclass id hid
  rw [ClassId.parse_eq_ok, ClassId.ofText?_eq_some_ofName,
    ClassPlace.shownText_of_dots_eq_zero hdots] at hread
  exact ⟨ClassPlace.dotless_iff.2 hdots, hread.2.1, hread.2.2.1⟩

/-- A class file below a root is where its path leads, unless the path is too long. -/
theorem HasClassFile.resolve_eq (h : t.HasClassFile top place) (ht : t.IsProper)
    (hroot : t.resolve root = .ok top) (hshort : (place.pathBelow root).utf8ByteSize < maxPath) :
    t.resolve (place.pathBelow root) = .ok (top ++ place.location) := by
  obtain ⟨-, content, hfile⟩ := h
  exact ht.resolve_below hroot hfile hshort

theorem accepts_of_hasPath {roots : List String} {name : ClassName} (hroot : root ∈ roots)
    (h : t.hasPath (name.pathBelow .binary root) = true) :
    (Probe.ofClassPath t roots).accepts name = true := by
  change (t.find? .binary roots (.ofName name)).isSome = true
  rw [find?_ofName, Option.isSome_map, List.find?_isSome]
  exact ⟨root, hroot, h⟩

theorem HasClassFile.accepts (h : t.HasClassFile top place) (ht : t.IsProper)
    (hplain : place.IsPlain) {roots : List String} (hmem : root ∈ roots)
    (hroot : t.resolve root = .ok top) (hshort : (place.pathBelow root).utf8ByteSize < maxPath) :
    (Probe.ofClassPath t roots).accepts (.ofText place.text) = true := by
  apply accepts_of_hasPath hmem
  rw [ClassPlace.pathBelow_ofText hplain (h.slash_notMem ht), hasPath, stat,
    h.resolve_eq ht hroot hshort]
  rfl

end FileTree

namespace Plan

variable {plan : Plan} {t : FileTree}

/-- All class files of a plan have plain texts. -/
def IsPlain (plan : Plan) (t : FileTree) : Prop :=
  ∀ root ∈ plan.classRoots, ∃ top, t.resolve root = .ok top ∧
    ∀ place, t.HasClassFile top place → place.IsPlain

theorem exists_starts (ht : t.IsProper) (hall : plan.allClasses = true) (h : plan.IsPlain t) :
    ∃ starts, plan.starts t = .ok starts ∧
      ∀ root ∈ plan.classRoots, ∀ top, t.resolve root = .ok top →
        ∀ place, t.HasClassFile top place → .ofName (.ofText place.text) ∈ starts := by
  have hdiscovered (root : String) (hmem : root ∈ plan.classRoots) :
      ∃ ids, t.discover root = .ok ids ∧ ∀ top, t.resolve root = .ok top →
        ∀ place, t.HasClassFile top place → .ofName (.ofText place.text) ∈ ids := by
    obtain ⟨top, hroot, hplain⟩ := h root hmem
    obtain ⟨ids, hids, hperm⟩ := FileTree.discoversExactly_of_isPlain ht hroot hplain
    refine ⟨ids, hids.found, fun other hother place hfile => ?_⟩
    obtain rfl : top = other := Except.ok.inj (hroot.symm.trans hother)
    exact hperm.mem_iff.2 (List.mem_map_of_mem (FileTree.mem_places.2 hfile))
  obtain ⟨found, hfound⟩ := exists_mapM_iff.2 fun root hmem =>
    let ⟨ids, hids, _⟩ := hdiscovered root hmem
    ⟨ids, hids⟩
  refine ⟨plan.roots ++ found.flatten, ?_, fun root hmem top hroot place hfile => ?_⟩
  · unfold starts
    rw [if_pos hall, hfound]
    rfl
  · obtain ⟨ids, hids, hplaces⟩ := hdiscovered root hmem
    have hin : ids ∈ found := (mem_of_mapM hfound ids).2 ⟨root, hmem, hids⟩
    exact List.mem_append_right _ (List.mem_flatten.2 ⟨ids, hin, hplaces top hroot place hfile⟩)

/-- What a survey starts from and accepts is internal, from its start to its end. -/
theorem mem_internal_of_starts {starts : List ClassId} {name : ClassName}
    (hstarts : plan.starts t = .ok starts) (hname : .ofName name ∈ starts)
    (haccepts : (Probe.ofClassPath t plan.classRoots).accepts name = true) :
    name ∈ (Survey.fresh (.ofClassPath t plan.classRoots) plan.followsMembers
        starts).frontier.internal ∧
      ∀ findings, plan.analyze t = .ok findings → name ∈ findings.frontier.internal := by
  have hmet : name ∈ ClassId.names starts := ClassId.mem_names.2 ⟨.ofName name, hname, rfl⟩
  constructor
  · have hfresh := Survey.progress_fresh (.ofClassPath t plan.classRoots)
      (t.loadClass plan.classRoots) plan.followsMembers starts
    rw [hfresh.classifies.mem_internal]
    exact ⟨List.mem_append_left _ hmet, haccepts⟩
  · intro findings hfindings
    obtain ⟨others, s, visited, hothers, hcomplete, rfl⟩ := complete_of_analyze hfindings
    obtain rfl : starts = others := Except.ok.inj (hstarts.symm.trans hothers)
    rw [hcomplete.progress.classifies.mem_internal]
    exact ⟨List.mem_append_left _ hmet, haccepts⟩

/-- The classes discovered below a root are those of the class files there, each once, exactly if
the texts of all these files are plain, and the paths of the classes lead to the files. A plan
that starts from all classes, and has class files with plain texts only, counts all of them to
the tree. Paths must not be too long to be followed. -/
theorem discoversExactly_iff (t : FileTree) (ht : t.IsProper) :
    (∀ root top, t.resolve root = .ok top →
      ((∃ ids, t.DiscoversExactly root top ids) ↔
        ∀ place, t.HasClassFile top place → place.IsPlain) ∧
      ∀ place, t.HasClassFile top place →
        (place.pathBelow root).utf8ByteSize < FileTree.maxPath →
        t.resolve (place.pathBelow root) = .ok (top ++ place.location)) ∧
    ∀ plan : Plan, plan.allClasses = true → plan.IsPlain t →
      ∃ starts, plan.starts t = .ok starts ∧
        ∀ root ∈ plan.classRoots, ∀ top, t.resolve root = .ok top →
          ∀ place, t.HasClassFile top place →
            (place.pathBelow root).utf8ByteSize < FileTree.maxPath →
            .ofText place.text ∈ (Survey.fresh (.ofClassPath t plan.classRoots)
                plan.followsMembers starts).frontier.internal ∧
              ∀ findings, plan.analyze t = .ok findings →
                .ofText place.text ∈ findings.frontier.internal := by
  constructor
  · intro root top hroot
    refine ⟨⟨?_, ?_⟩, fun place hfile hshort => hfile.resolve_eq ht hroot hshort⟩
    · rintro ⟨ids, hids⟩ place hfile
      exact FileTree.isPlain_of_discoversExactly ht hroot hids hfile
    · intro hplain
      obtain ⟨ids, hids, -⟩ := FileTree.discoversExactly_of_isPlain ht hroot hplain
      exact ⟨ids, hids⟩
  · intro plan hall hplan
    obtain ⟨starts, hstarts, hplaces⟩ := exists_starts ht hall hplan
    refine ⟨starts, hstarts, fun root hmem top hroot place hfile hshort => ?_⟩
    obtain ⟨other, hother, hplain⟩ := hplan root hmem
    obtain rfl : top = other := Except.ok.inj (hroot.symm.trans hother)
    have haccepts := hfile.accepts ht (hplain place hfile) hmem hroot hshort
    exact mem_internal_of_starts hstarts (hplaces root hmem top hroot place hfile) haccepts

/-- A tree with two class files below `r`, and a file of another kind. -/
def plainTree : FileTree where
  nodes := .ofList [(["r"], FileNode.directory), (["r", "C.class"], .file []),
    (["r", "p"], .directory), (["r", "p", "A$B.class"], .file []), (["r", "p", "x.txt"], .file [])]

def plainPlan : Plan where
  classRoots := ["r"]
  allClasses := true

theorem resolve_eq_of_toOption {path : String} {location : Location}
    (h : (t.resolve path).toOption = some location) : t.resolve path = .ok location := by
  cases hresolve : t.resolve path <;> simp_all [Except.toOption]

theorem resolve_plainTree : plainTree.resolve "r" = .ok ["r"] :=
  resolve_eq_of_toOption (by decide +kernel)

theorem discoversExactly_iff_plain :
    plainTree.IsProper ∧ (∃ ids, plainTree.DiscoversExactly "r" ["r"] ids) ∧
      ∃ starts, plainPlan.starts plainTree = .ok starts ∧
        ClassName.ofText "p/A$B" ∈ (Survey.fresh (.ofClassPath plainTree plainPlan.classRoots)
          plainPlan.followsMembers starts).frontier.internal := by
  have ht : plainTree.IsProper := FileTree.isProper_of_entries (by decide +kernel)
  have hplaces : plainTree.places ["r"] = [⟨[], "C"⟩, ⟨["p"], "A$B"⟩] := by decide +kernel
  have hplain (place : ClassPlace) (h : plainTree.HasClassFile ["r"] place) : place.IsPlain := by
    rw [← FileTree.mem_places, hplaces] at h
    have hall : ∀ place ∈ [ClassPlace.mk [] "C", ⟨["p"], "A$B"⟩], place.IsPlain := by decide +kernel
    exact hall place h
  have hfile : plainTree.HasClassFile ["r"] ⟨["p"], "A$B"⟩ := by
    rw [← FileTree.mem_places, hplaces]
    simp
  obtain ⟨hdiscover, hplan⟩ := discoversExactly_iff plainTree ht
  have hids := (hdiscover "r" ["r"] resolve_plainTree).1.2 hplain
  obtain ⟨starts, hstarts, hinternal⟩ := hplan plainPlan rfl (by
    intro root hroot
    obtain rfl := List.mem_singleton.1 hroot
    exact ⟨["r"], resolve_plainTree, hplain⟩)
  exact ⟨ht, hids, starts, hstarts, (hinternal "r" (by simp [plainPlan]) ["r"] resolve_plainTree
    ⟨["p"], "A$B"⟩ hfile (by decide +kernel)).1⟩

def singleTree (name : String) : FileTree where
  nodes := .ofList [(["r"], FileNode.directory), (["r", name], .file [])]

theorem discover_single {place : ClassPlace} (hroot : t.resolve "r" = .ok ["r"])
    (hplaces : t.places ["r"] = [place]) :
    t.discover "r" = (ClassId.parse place.shownText).map ([·]) := by
  rw [FileTree.discover_eq hroot, hplaces]
  cases hread : ClassId.parse place.shownText <;> simp [hread] <;> rfl

/-- A dot in a name separates packages, and a bracket alone is no class. -/
theorem exists_not_discovered :
    ((singleTree "a.b.class").IsProper ∧
      (singleTree "a.b.class").HasClassFile ["r"] ⟨[], "a.b"⟩ ∧
      (singleTree "a.b.class").discover "r" = .ok [.ofName (.ofText "a/b")] ∧
      ¬ ∃ ids, (singleTree "a.b.class").DiscoversExactly "r" ["r"] ids) ∧
    (singleTree "[.class").IsProper ∧ (singleTree "[.class").HasClassFile ["r"] ⟨[], "["⟩ ∧
      (singleTree "[.class").discover "r" = .error (.format (.notAClassName "[")) := by
  have hroot : (singleTree "a.b.class").resolve "r" = .ok ["r"] :=
    resolve_eq_of_toOption (by decide +kernel)
  have hroot' : (singleTree "[.class").resolve "r" = .ok ["r"] :=
    resolve_eq_of_toOption (by decide +kernel)
  have hdotted : (singleTree "a.b.class").places ["r"] = [⟨[], "a.b"⟩] := by decide +kernel
  have hbracket : (singleTree "[.class").places ["r"] = [⟨[], "["⟩] := by decide +kernel
  have hread : ClassId.parse (ClassPlace.mk [] "a.b").shownText =
      .ok (.ofName (.ofText "a/b")) := by
    rw [ClassId.parse_eq_ok]
    decide +kernel
  have hunread : ClassId.parse (ClassPlace.mk [] "[").shownText =
      .error (.format (.notAClassName "[")) := by
    have htext : (ClassPlace.mk [] "[").shownText = "[" := by decide +kernel
    have hnone : ClassId.ofText? "[" = none := by decide +kernel
    rw [htext, ClassId.parse, hnone]
  have hfile : (singleTree "a.b.class").HasClassFile ["r"] ⟨[], "a.b"⟩ := by
    rw [← FileTree.mem_places, hdotted]
    simp
  have hdiscover : (singleTree "a.b.class").discover "r" = .ok [.ofName (.ofText "a/b")] := by
    rw [discover_single hroot hdotted, hread]
    rfl
  refine ⟨⟨FileTree.isProper_of_entries (by decide +kernel), hfile, hdiscover, ?_⟩,
    FileTree.isProper_of_entries (by decide +kernel), ?_, ?_⟩
  · rintro ⟨ids, hids⟩
    obtain rfl := Except.ok.inj (hdiscover.symm.trans hids.found)
    have hmem := (hids.mem_iff (some "r/a.b.class")).2 ⟨_, hfile, by decide +kernel⟩
    revert hmem
    decide +kernel
  · rw [← FileTree.mem_places, hbracket]
    simp
  · rw [discover_single hroot' hbracket, hunread]
    rfl

end Plan

end ClassAtlas
