import Juos.Machine.Memory
import Mathlib.Data.List.TakeWhile

/-!
# C strings

A text is a list of bytes without a NUL. `TextOf bytes text` says that a memory holds the text from
its first place on, with a NUL behind it; `cString` reads the text off a list of bytes. `TextAt` is
a text in a memory with 32-bit addresses.
-/

namespace Machine

/-- The C string at the start of `bytes`. -/
structure TextOf (bytes : Nat → UInt8) (text : List UInt8) : Prop where
  nonzero : ∀ c ∈ text, c ≠ 0
  chars : ∀ i < text.length, text[i]? = some (bytes i)
  terminated : bytes text.length = 0

namespace TextOf

variable {bytes : Nat → UInt8} {text text' : List UInt8} {i : Nat}

theorem ne_zero (h : TextOf bytes text) (hi : i < text.length) : bytes i ≠ 0 :=
  h.nonzero _ (List.mem_of_getElem? (h.chars i hi))

theorem length_le (h : TextOf bytes text) (h' : TextOf bytes text') :
    text.length ≤ text'.length := by
  by_contra hLonger
  exact h.ne_zero (Nat.lt_of_not_le hLonger) h'.terminated

theorem unique (h : TextOf bytes text) (h' : TextOf bytes text') : text = text' := by
  have hLength := Nat.le_antisymm (h.length_le h') (h'.length_le h)
  refine List.ext_getElem? fun i => ?_
  rcases Nat.lt_or_ge i text.length with hi | hi
  · rw [h.chars i hi, h'.chars i (hLength ▸ hi)]
  · rw [List.getElem?_eq_none hi, List.getElem?_eq_none (hLength ▸ hi)]

end TextOf

/-- The text that starts with the first of the bytes. -/
def cString (bytes : List UInt8) : List UInt8 := bytes.takeWhile (· ≠ 0)

section CString

variable {text bytes : List UInt8}

theorem ne_zero_of_mem_cString {c : UInt8} (h : c ∈ cString bytes) : c ≠ 0 := by
  simpa using List.mem_takeWhile_imp h

theorem cString_append (h : ∀ c ∈ text, c ≠ 0) (bytes : List UInt8) :
    cString (text ++ bytes) = text ++ cString bytes :=
  List.takeWhile_append_of_pos fun c hMem => decide_eq_true (h c hMem)

theorem cString_terminated (h : ∀ c ∈ text, c ≠ 0) (bytes : List UInt8) :
    cString (text ++ 0 :: bytes) = text := by
  rw [cString_append h, cString, List.takeWhile_cons_of_neg (by decide), List.append_nil]

/-- The bytes are the text, a NUL, and whatever follows. -/
theorem eq_cString_append (h : 0 ∈ bytes) : ∃ rest, bytes = cString bytes ++ 0 :: rest := by
  induction bytes with
  | nil => cases h
  | cons c bytes ih =>
    by_cases hc : c = 0
    · subst hc
      exact ⟨bytes, rfl⟩
    · obtain ⟨rest, hRest⟩ := ih ((List.mem_cons.mp h).resolve_left (Ne.symm hc))
      refine ⟨rest, ?_⟩
      rw [cString, List.takeWhile_cons_of_pos (by simpa using hc), List.cons_append]
      exact congrArg (c :: ·) hRest

/-- The text that a memory holds is the one that is read off enough of its bytes. -/
theorem TextOf.cString_eq {memory : Nat → UInt8} (h : TextOf memory text) {n : Nat}
    (hn : text.length < n) : cString ((List.range n).map memory) = text := by
  obtain ⟨k, rfl⟩ := Nat.exists_eq_add_of_lt hn
  have hText : (List.range text.length).map memory = text := by
    refine List.ext_getElem? fun i => ?_
    rcases Nat.lt_or_ge i text.length with hi | hi
    · rw [h.chars i hi, List.getElem?_map, List.getElem?_range hi, Option.map_some]
    · rw [List.getElem?_eq_none hi, List.getElem?_eq_none (by simpa using hi)]
  rw [Nat.add_assoc, List.range_add, List.map_append, hText, Nat.add_comm k 1, List.range_add,
    List.map_append, List.map_append, List.range_one, List.map_singleton, List.map_singleton,
    Nat.add_zero, h.terminated, List.singleton_append]
  exact cString_terminated h.nonzero _

end CString

/-! ## In memory -/

/-- The C string at the address `p`. -/
def TextAt (m : Memory) (p : Nat) (text : List UInt8) : Prop :=
  TextOf (fun k => m ((p + k) % 4294967296)) text

section TextAt

variable {m m' : Memory} {p k : Nat} {text text' : List UInt8}

theorem textAt_iff : TextAt m p text ↔
    (∀ k (hk : k < text.length), load8 m (p + k) = text[k].toNat ∧ text[k] ≠ 0) ∧
      load8 m (p + text.length) = 0 := by
  constructor
  · intro h
    refine ⟨fun k hk => ⟨?_, h.nonzero _ (List.getElem_mem hk)⟩, congrArg UInt8.toNat h.terminated⟩
    have hChar := h.chars k hk
    rw [List.getElem?_eq_getElem hk] at hChar
    rw [Option.some.inj hChar, load8]
  · rintro ⟨hChars, hEnd⟩
    refine ⟨fun c hc => ?_, fun k hk => ?_, UInt8.toNat_inj.mp hEnd⟩
    · obtain ⟨k, hk, rfl⟩ := List.mem_iff_getElem.mp hc
      exact (hChars k hk).2
    · rw [List.getElem?_eq_getElem hk]
      exact congrArg some (UInt8.toNat_inj.mp (hChars k hk).1).symm

theorem TextAt.char (h : TextAt m p text) (hk : k < text.length) :
    load8 m (p + k) = text[k].toNat :=
  ((textAt_iff.mp h).1 k hk).1

theorem TextAt.char_ne_zero (h : TextAt m p text) (hk : k < text.length) :
    load8 m (p + k) ≠ 0 := by
  rw [h.char hk]
  exact fun hZero => ((textAt_iff.mp h).1 k hk).2 (UInt8.toNat_inj.mp hZero)

theorem TextAt.end_eq (h : TextAt m p text) : load8 m (p + text.length) = 0 :=
  (textAt_iff.mp h).2

/-- The text is the part of the memory up to the first NUL. -/
theorem textAt_map_range {n : Nat} (hBefore : ∀ k < n, load8 m (p + k) ≠ 0)
    (hEnd : load8 m (p + n) = 0) :
    TextAt m p ((List.range n).map fun k => m ((p + k) % 4294967296)) := by
  refine textAt_iff.mpr ⟨fun k hk => ?_, by rwa [List.length_map, List.length_range]⟩
  rw [List.length_map, List.length_range] at hk
  rw [List.getElem_map, List.getElem_range]
  exact ⟨rfl, fun hZero => hBefore k hk (congrArg UInt8.toNat hZero)⟩

theorem exists_textAt {n : Nat} (h : load8 m (p + n) = 0) :
    ∃ text, TextAt m p text ∧ text.length ≤ n := by
  induction n using Nat.strongRecOn with
  | ind n ih =>
    by_cases hBefore : ∀ k < n, load8 m (p + k) ≠ 0
    · exact ⟨_, textAt_map_range hBefore h, by rw [List.length_map, List.length_range]⟩
    · push Not at hBefore
      obtain ⟨k, hk, hNul⟩ := hBefore
      obtain ⟨text, hText, hLength⟩ := ih k hk hNul
      exact ⟨text, hText, hLength.trans hk.le⟩

theorem TextAt.congr (h : TextAt m p text) (hSame : SameOn m m' p (text.length + 1)) :
    TextAt m' p text := by
  refine textAt_iff.mpr ⟨fun k hk => ?_, ?_⟩
  · rw [hSame k (Nat.lt_succ_of_lt hk)]
    exact (textAt_iff.mp h).1 k hk
  · rw [hSame _ (Nat.lt_succ_self _)]
    exact h.end_eq

end TextAt

end Machine
