import Mathlib.Algebra.Order.Monoid.Unbundled.Pow
import Mathlib.Algebra.GroupWithZero.Nat
import Mathlib.Computability.Language
import Mathlib.Order.CompletePartialOrder
import ClassAtlas.Proofs.Decoder.Recovery

/-!
# Grammars of byte strings

What a decoder takes can be told without decoding it: a grammar is the language of the byte
strings that are complete. In the grammars here no complete string starts with another one. So a
string of bytes starts with one of them at most, and one that is cut off starts with none. A
decoder that follows such a grammar, alone on a block, answers the same whatever fills the block
behind the string that it takes, and does not answer where that string is cut off.
-/

namespace ClassAtlas

variable {α β : Type}

/-! ### Prefixes -/

/-- The strings are the same if some string starts with both. -/
def Agree (s t : List UInt8) : Prop :=
  ∀ x y, s ++ x = t ++ y → s = t

namespace Agree

variable {s t u v : List UInt8}

theorem of_length (h : s.length = t.length) : Agree s t :=
  fun _ _ heq => List.append_inj_left heq h

theorem append (hfirst : Agree s t) (hsecond : s = t → Agree u v) : Agree (s ++ u) (t ++ v) := by
  intro x y h
  rw [List.append_assoc, List.append_assoc] at h
  obtain rfl := hfirst _ _ h
  rw [hsecond rfl _ _ (List.append_cancel_left h)]

end Agree

/-- No string of the language starts with another one. -/
def IsPrefixFree (G : Language UInt8) : Prop :=
  ∀ s ∈ G, ∀ t ∈ G, Agree s t

/-! ### Grammars put together -/

namespace Grammar

variable {G H : Language UInt8}

/-- So many bytes, whatever they are. -/
def fixed (width : Nat) : Language UInt8 :=
  {bytes | bytes.length = width}

abbrev slot : Language UInt8 := fixed 2

/-- A byte, and then what belongs behind this byte. -/
def tagged (G : UInt8 → Language UInt8) : Language UInt8 :=
  {bytes | ∃ tag, ∃ rest ∈ G tag, bytes = [tag] ++ rest}

def counted (G : UInt16 → Language UInt8) : Language UInt8 :=
  {bytes | ∃ count, ∃ rest ∈ G count, bytes = u2Bytes count ++ rest}

def table (G : Language UInt8) : Language UInt8 :=
  counted fun count => G ^ count.toNat

theorem table_mono (h : G ≤ H) : table G ≤ table H :=
  fun _ ⟨count, rest, hrest, hbytes⟩ =>
    ⟨count, rest, pow_le_pow_left' h count.toNat hrest, hbytes⟩

end Grammar

namespace IsPrefixFree

variable {G H : Language UInt8}

theorem zero : IsPrefixFree 0 :=
  fun _ h => absurd h (Language.notMem_zero _)

theorem one : IsPrefixFree 1 := by
  rintro _ rfl _ rfl
  exact .of_length rfl

theorem fixed (width : Nat) : IsPrefixFree (Grammar.fixed width) :=
  fun _ hs _ ht => .of_length (hs.trans ht.symm)

theorem mul (hG : IsPrefixFree G) (hH : IsPrefixFree H) : IsPrefixFree (G * H) := by
  rintro _ ⟨s, hs, u, hu, rfl⟩ _ ⟨t, ht, v, hv, rfl⟩
  exact (hG s hs t ht).append fun _ => hH u hu v hv

theorem tagged {G : UInt8 → Language UInt8} (h : ∀ tag, IsPrefixFree (G tag)) :
    IsPrefixFree (Grammar.tagged G) := by
  rintro _ ⟨tag, s, hs, rfl⟩ _ ⟨tag', t, ht, rfl⟩
  refine .append (.of_length rfl) fun heq => ?_
  obtain rfl := (List.cons.inj heq).1
  exact h tag s hs t ht

theorem counted {G : UInt16 → Language UInt8} (h : ∀ count, IsPrefixFree (G count)) :
    IsPrefixFree (Grammar.counted G) := by
  rintro _ ⟨count, s, hs, rfl⟩ _ ⟨count', t, ht, rfl⟩
  refine .append (.of_length rfl) fun heq => ?_
  have hcount := Decodes.u2 count
  rw [heq] at hcount
  obtain rfl := hcount.answer_eq (Decodes.u2 count')
  exact h count s hs t ht

theorem levels {G : Nat → Language UInt8} (hmono : Monotone G) (h : ∀ n, IsPrefixFree (G n)) :
    IsPrefixFree {bytes | ∃ n, bytes ∈ G n} := by
  rintro s ⟨n, hs⟩ t ⟨m, ht⟩
  exact h (max n m) s (hmono (le_max_left n m) hs) t (hmono (le_max_right n m) ht)

end IsPrefixFree

/-! ### Decoders that follow a grammar -/

/-- For each of its answers the decoder takes a string of the grammar and looks at no byte behind
it, and where such a string ends can be told from the string alone. -/
structure Follows (d : Decoder α) (G : Language UInt8) : Prop where
  isLocal : IsLocal d
  takes : Takes d fun used _ => used ∈ G
  isPrefixFree : IsPrefixFree G

namespace Follows

variable {d : Decoder α} {f : α → Decoder β} {G H : Language UInt8}

theorem throw (e : Error) : Follows (MonadExcept.throw e : Decoder α) 0 where
  isLocal := .throw e
  takes := fun _ _ _ h => by contradiction
  isPrefixFree := .zero

theorem pure (a : α) : Follows (Pure.pure a) 1 where
  isLocal := .pure a
  takes := (Takes.pure a).mono fun _ _ h => h.1
  isPrefixFree := .one

theorem bind [Nonempty α] (hd : Follows d G) (hf : ∀ a, Follows (f a) H) :
    Follows (d >>= f) (G * H) where
  isLocal := hd.isLocal.bind fun a => (hf a).isLocal
  takes := hd.takes.bind fun _ a hused => (hf a).takes.mono fun _ _ hmore =>
    Language.append_mem_mul hused hmore
  isPrefixFree := hd.isPrefixFree.mul (hf (Classical.arbitrary α)).isPrefixFree

theorem last (h : Follows d G) (f : α → β) : Follows (do return f (← d)) G where
  isLocal := h.isLocal.bind fun _ => .pure _
  takes := h.takes.last f
  isPrefixFree := h.isPrefixFree

theorem u1 : Follows Decoder.u1 (Grammar.fixed 1) where
  isLocal := .u1
  takes := Takes.u1.mono fun _ _ h => congrArg List.length h
  isPrefixFree := .fixed 1

theorem u2 : Follows Decoder.u2 (Grammar.fixed 2) where
  isLocal := .u2
  takes := Takes.u2.mono fun _ _ h => congrArg List.length h
  isPrefixFree := .fixed 2

theorem skip (length : Nat) : Follows (Decoder.skip length) (Grammar.fixed length) where
  isLocal := .skip length
  takes := .skip length
  isPrefixFree := .fixed length

theorem slot (look : UInt16 → Except Error α) :
    Follows (do Decoder.ofExcept (look (← Decoder.u2))) Grammar.slot where
  isLocal := IsLocal.u2.bind fun _ => .ofExcept _
  takes := (Takes.slot look).mono fun _ _ ⟨_, hused⟩ => congrArg List.length hused
  isPrefixFree := .fixed 2

theorem tagged {f : UInt8 → Decoder β} {G : UInt8 → Language UInt8}
    (h : ∀ tag, Follows (f tag) (G tag)) : Follows (Decoder.u1 >>= f) (Grammar.tagged G) where
  isLocal := IsLocal.u1.bind fun tag => (h tag).isLocal
  takes := Takes.u1.bind fun _ tag hused => (h tag).takes.mono fun more _ hmore =>
    ⟨tag, more, hmore, by rw [hused]⟩
  isPrefixFree := .tagged fun tag => (h tag).isPrefixFree

theorem counted {f : UInt16 → Decoder β} {G : UInt16 → Language UInt8}
    (h : ∀ count, Follows (f count) (G count)) :
    Follows (Decoder.u2 >>= f) (Grammar.counted G) where
  isLocal := IsLocal.u2.bind fun count => (h count).isLocal
  takes := Takes.u2.bind fun _ count hused => (h count).takes.mono fun more _ hmore =>
    ⟨count, more, hmore, by rw [hused]⟩
  isPrefixFree := .counted fun count => (h count).isPrefixFree

theorem iterate [Nonempty α] {step : α → Decoder α} (h : ∀ a, Follows (step a) G) (count : Nat)
    (a : α) : Follows (Decoder.iterate step count a) (G ^ count) := by
  induction count generalizing a with
  | zero => exact pure a
  | succ count ih =>
    rw [pow_succ']
    exact (h a).bind ih

theorem replicate (h : Follows d G) (count : Nat) :
    Follows (Decoder.replicate count d) (G ^ count) :=
  (iterate (fun seen => h.last (· :: seen)) count []).last _

theorem table (h : Follows d G) : Follows (Decoder.counted d) (Grammar.table G) :=
  counted fun count => h.replicate count.toNat

/-! ### On blocks -/

variable {body front other more : List UInt8} {a : α}

theorem exists_front (h : Follows d G) (hd : d.alone body = .ok a) :
    ∃ front ∈ G, front <+: body ∧ Decodes d front a := by
  obtain ⟨stop, hstop⟩ := Decoder.alone_eq_ok_iff.1 hd
  obtain ⟨used, hused, hneeds⟩ := h.isLocal _ a stop hstop
  obtain ⟨used', hused', hG⟩ := h.takes _ a stop hstop
  obtain rfl := List.append_cancel_right (hused.symm.trans hused')
  exact ⟨used, hG, ⟨stop.rest, hused.symm⟩, hneeds.decodes⟩

theorem alone_eq_of_front (h : Follows d G) (hd : d.alone body = .ok a) (hfront : front ∈ G)
    (hbody : front <+: body) (hother : front <+: other) : d.alone other = .ok a := by
  obtain ⟨used, hused, ⟨rest, rfl⟩, hdecodes⟩ := h.exists_front hd
  obtain ⟨rest', hrest⟩ := hbody
  obtain rfl := h.isPrefixFree used hused front hfront rest rest' hrest.symm
  obtain ⟨trailing, rfl⟩ := hother
  exact hdecodes.yields.alone_eq trailing

theorem alone_ne_ok (h : Follows d G) (hmore : more ≠ []) (hG : body ++ more ∈ G) :
    d.alone body ≠ .ok a := by
  intro hd
  obtain ⟨used, hused, ⟨rest, rfl⟩, -⟩ := h.exists_front hd
  have hwhole := h.isPrefixFree used hused _ hG (rest ++ more) [] (by simp)
  have hlength := congrArg List.length hwhole
  have hpos := List.length_pos_iff.2 hmore
  simp only [List.length_append] at hlength
  omega

end Follows

end ClassAtlas
