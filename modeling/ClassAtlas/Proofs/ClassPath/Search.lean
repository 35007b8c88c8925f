import Mathlib.Data.List.Nodup
import Mathlib.Data.List.Perm.Subperm
import Mathlib.Data.Nat.Digits.Defs
import ClassAtlas.ClassPath
import ClassAtlas.Proofs.Decoder.Answers
import ClassAtlas.Proofs.Profile.Rows
import ClassAtlas.Proofs.Survey.Closure

/-!
# The search for class files

A class is looked for below one root after another, and the first root where there is
something at its path counts. The probe and the loader of a class path search alike, so what
the probe accepts can be loaded, from the path that the probe reports.

A class file holds one class, so classes with different names are loaded from different
paths, even where two names lead to the same file. Paths are short, and so there are fewer
classes to be loaded than a number that does not depend on the tree.
-/

namespace ClassAtlas

namespace FileTree

variable {t : FileTree} {kind : FileKind} {roots : List String} {name : ClassName} {path : String}

/-- The path of a class below the first root where there is something at it. -/
def IsFirstCandidate (t : FileTree) (kind : FileKind) (roots : List String) (name : ClassName)
    (path : String) : Prop :=
  ∃ before root after, roots = before ++ root :: after ∧ path = name.pathBelow kind root ∧
    t.hasPath path = true ∧ ∀ earlier ∈ before, t.hasPath (name.pathBelow kind earlier) = false

theorem find?_ofName : t.find? kind roots (.ofName name) =
    (roots.find? fun root => t.hasPath (name.pathBelow kind root)).map
      fun root => name.pathBelow kind root := by
  have hpaths : (roots.filterMap fun root => (ClassId.ofName name).pathBelow? kind root) =
      roots.map fun root => name.pathBelow kind root := by
    simp [ClassId.pathBelow?]
  rw [find?, hpaths, List.find?_map, Function.comp_def]

theorem find?_ofName_eq_some_iff :
    t.find? kind roots (.ofName name) = some path ↔ t.IsFirstCandidate kind roots name path := by
  rw [find?_ofName, Option.map_eq_some_iff]
  constructor
  · rintro ⟨root, hroot, rfl⟩
    obtain ⟨hpath, before, after, hroots, hbefore⟩ := List.find?_eq_some_iff_append.1 hroot
    refine ⟨before, root, after, hroots, rfl, hpath, ?_⟩
    intro earlier hearlier
    simpa using hbefore earlier hearlier
  · rintro ⟨before, root, after, hroots, rfl, hpath, hbefore⟩
    refine ⟨root, ?_, rfl⟩
    rw [List.find?_eq_some_iff_append]
    refine ⟨hpath, before, after, hroots, ?_⟩
    intro earlier hearlier
    simp [hbefore earlier hearlier]

theorem loadClass_of_find? (h : t.find? .binary roots (.ofName name) = some path) :
    t.loadClass roots name = (t.read path).mapError (.file path) := by
  rw [loadClass, h]

theorem exists_find?_of_accepts (h : (Probe.ofClassPath t roots).accepts name = true) :
    ∃ path, t.find? .binary roots (.ofName name) = some path :=
  Option.isSome_iff_exists.1 h

/-- Whatever is at a path, the path is short. -/
theorem utf8ByteSize_lt_of_hasPath (h : t.hasPath path = true) : path.utf8ByteSize < maxPath := by
  by_contra hlong
  have hrefused : t.resolve path = .error .nulInPath ∨ t.resolve path = .error .missing ∨
      t.resolve path = .error .nameTooLong := by
    unfold resolve checkPath
    split
    · exact Or.inl rfl
    · split
      · exact Or.inr (Or.inl rfl)
      · rw [if_pos (by omega)]
        exact Or.inr (Or.inr rfl)
  unfold hasPath stat at h
  rcases hrefused with hrefused | hrefused | hrefused <;> rw [hrefused] at h <;> contradiction

end FileTree

/-! ### One class to a file -/

/-- A class file that was asked for by a name holds the class of this name. -/
theorem ClassFile.answers_text_eq (id : ClassId) :
    Answers (ClassFile.read (some id)) fun c => id.text = c.id.text := by
  have hchecked (found : ClassId) :
      Answers (checkIdentity (some id) found) fun _ => id.text = found.text := by
    unfold checkIdentity
    dsimp only
    split
    · next hsame => exact .pure (eq_of_beq hsame)
    · exact .throw _ _
  refine .after fun start => ?_
  split
  · intro _ _ _ hrefused
    contradiction
  · refine .after fun _ => .after fun _ => .after fun _ => .after fun _ => .after fun found => ?_
    exact (hchecked found).bind fun _ hid =>
      .after fun _ => .after fun _ => .after fun _ => .after fun _ => .after fun _ => .pure hid

theorem ClassFile.text_eq_of_decode {id : ClassId} {bytes : List UInt8} {c : ClassFile}
    (h : decode (some id) bytes = .ok c) : id.text = c.id.text := by
  obtain ⟨stop, hread⟩ := read_of_decode h
  exact answers_text_eq id _ _ _ hread

/-- Classes that are loaded from one path are the same. -/
theorem Survey.eq_of_isFileOf {t : FileTree} {roots : List String} {a b : ClassName}
    {c d : ClassFile} {path : String} (ha : t.find? .binary roots (.ofName a) = some path)
    (hb : t.find? .binary roots (.ofName b) = some path)
    (hc : IsFileOf (t.loadClass roots) a c) (hd : IsFileOf (t.loadClass roots) b d) : a = b := by
  obtain ⟨bytes, hload, hdecode⟩ := hc
  obtain ⟨others, hload', hdecode'⟩ := hd
  rw [FileTree.loadClass_of_find? ha] at hload
  rw [FileTree.loadClass_of_find? hb, hload, Except.ok.injEq] at hload'
  subst hload'
  have hsame : c.id.text = d.id.text := by
    have hfirst := ClassFile.decode_none_of_decode hdecode
    have hsecond := ClassFile.decode_none_of_decode hdecode'
    rw [Except.ok.inj (hfirst.symm.trans hsecond)]
  apply ClassName.ext_text
  have hfirst := ClassFile.text_eq_of_decode hdecode
  have hsecond := ClassFile.text_eq_of_decode hdecode'
  rw [ClassId.text_ofName] at hfirst hsecond
  rw [hfirst, hsame, hsecond]

/-! ### Short paths are few -/

/-- The number whose digits are the bytes of a text, with a one above them. -/
def byteNumber (text : String) : Nat :=
  Nat.ofDigits 256 (text.toByteArray.data.toList.map UInt8.toNat ++ [1])

theorem digit_lt {text : String} {digit : Nat}
    (h : digit ∈ text.toByteArray.data.toList.map UInt8.toNat ++ [1]) : digit < 256 := by
  rcases List.mem_append.1 h with h | h
  · obtain ⟨b, -, rfl⟩ := List.mem_map.1 h
    exact b.toNat_lt
  · rw [List.mem_singleton.1 h]
    decide

theorem digits_byteNumber (text : String) : Nat.digits 256 (byteNumber text) =
    text.toByteArray.data.toList.map UInt8.toNat ++ [1] := by
  refine Nat.digits_ofDigits 256 (by decide) _ (fun _ => digit_lt) ?_
  intro hne
  rw [List.getLast_append_singleton]
  decide

theorem byteNumber_injective : Function.Injective byteNumber := by
  intro a b hab
  have hdigits := congrArg (Nat.digits 256) hab
  rw [digits_byteNumber, digits_byteNumber, List.append_left_inj] at hdigits
  have hbytes := List.map_injective_iff.2 (fun _ _ => UInt8.toNat_inj.1) hdigits
  exact String.toByteArray_inj.1 (ByteArray.ext (Array.toList_inj.1 hbytes))

theorem byteNumber_pos (text : String) : 0 < byteNumber text := by
  apply Nat.pos_of_ne_zero
  intro hzero
  have hdigits := digits_byteNumber text
  rw [hzero, Nat.digits_zero] at hdigits
  simp at hdigits

theorem byteNumber_lt {text : String} {n : Nat} (h : text.utf8ByteSize < n) :
    byteNumber text < 256 ^ n := by
  have hlt : byteNumber text < 256 ^ _ :=
    Nat.ofDigits_lt_base_pow_length (by decide) fun digit hdigit => @digit_lt text digit hdigit
  have hlength : (text.toByteArray.data.toList.map UInt8.toNat ++ [1]).length ≤ n := by
    simpa using Nat.succ_le_of_lt h
  exact hlt.trans_le (Nat.pow_le_pow_right (by decide) hlength)

theorem length_lt_of_short {texts : List String} {n : Nat} (hnodup : texts.Nodup)
    (h : ∀ text ∈ texts, text.utf8ByteSize < n) : texts.length < 256 ^ n := by
  have hsub : texts.map byteNumber ⊆ List.range' 1 (256 ^ n - 1) := by
    intro number hnumber
    obtain ⟨text, htext, rfl⟩ := List.mem_map.1 hnumber
    have hpos := byteNumber_pos text
    have hlt := byteNumber_lt (h text htext)
    rw [List.mem_range'_1]
    omega
  have hle := (List.subperm_of_subset (hnodup.map byteNumber_injective) hsub).length_le
  have hpos : 0 < 256 ^ n := Nat.pow_pos (by decide)
  rw [List.length_map, List.length_range'] at hle
  omega

end ClassAtlas
