import Juos.Machine.CString
import Mathlib.Data.List.Induction
import Mathlib.Order.Bounds.Basic

/-!
# Reading a line

`IO::GetString` over the characters that `GetChar` delivers. `edited` is the text that a sequence of
characters stands for when a backspace deletes the last one. The function takes a backspace from the
index only, and the character stays in the buffer; the text is right for exactly the lines that are
nowhere longer than at their end (`getString_iff`). What is on the screen is right in any case.
-/

namespace Juos.Terminal

open Machine

/-! ## The text that is meant -/

/-- `\b` deletes the last remaining character. -/
def edit (text : List UInt8) (c : UInt8) : List UInt8 :=
  if c = 8 then text.dropLast else text ++ [c]

def edited (keys : List UInt8) : List UInt8 := keys.foldl edit []

/-- The characters up to the newline, or until `maxLen` of them are held. -/
def processed (maxLen : Nat) : List UInt8 → List UInt8 → List UInt8
  | _, [] => []
  | text, c :: keys =>
    if text.length < maxLen ∧ c ≠ 10 then c :: processed maxLen (edit text c) keys else []

/-! ## The function -/

structure Line where
  buffer : Nat → UInt8
  i : Nat
  /-- every index of the buffer that was written so far -/
  written : List Nat
  /-- what `putchar` was called with -/
  echo : List UInt8

namespace Line

def putchar (l : Line) (c : UInt8) : Line := { l with echo := l.echo ++ [c] }

/-- The cases `'\b'` and `default` of the switch. -/
def take (l : Line) (c : UInt8) : Line :=
  if c = 8 then
    if 0 < l.i then { l.putchar 8 with i := l.i - 1 } else l
  else
    { l.putchar c with
      buffer := Function.update l.buffer l.i c
      i := l.i + 1
      written := l.written ++ [l.i] }

def start (buffer : Nat → UInt8) : Line := ⟨buffer, 0, [], []⟩

end Line

/-- `GetString` with the characters that come; `none` while it waits for another one. -/
def getString (maxLen : Nat) : List UInt8 → Line → Option Line
  | [], l => if l.i < maxLen then none else some l
  | c :: keys, l =>
    if l.i < maxLen then
      if c = 10 then some (l.putchar 10) else getString maxLen keys (l.take c)
    else some l

/-! ## What a line was at its longest -/

theorem edited_concat (keys : List UInt8) (c : UInt8) :
    edited (keys ++ [c]) = edit (edited keys) c := by
  rw [edited, List.foldl_append]
  rfl

theorem mem_edit {text : List UInt8} {c d : UInt8} (h : d ∈ edit text c) : d ∈ text ∨ d = c := by
  rw [edit] at h
  split_ifs at h
  · exact .inl ((List.dropLast_sublist _).subset h)
  · exact (List.mem_append.mp h).imp_right List.mem_singleton.mp

theorem mem_of_mem_edited {keys : List UInt8} {d : UInt8} (h : d ∈ edited keys) : d ∈ keys := by
  induction keys using List.reverseRecOn with
  | nil => exact h
  | append_singleton keys c ih =>
    rw [edited_concat] at h
    exact List.mem_append.mpr ((mem_edit h).imp ih List.mem_singleton.mpr)

/-- The lengths that the text had. -/
def lengths (keys : List UInt8) : Set Nat :=
  {n | ∃ front, front <+: keys ∧ (edited front).length = n}

theorem lengths_concat (keys : List UInt8) (c : UInt8) :
    lengths (keys ++ [c]) = insert (edited (keys ++ [c])).length (lengths keys) := by
  ext n
  constructor
  · rintro ⟨front, hFront, rfl⟩
    rcases List.prefix_concat_iff.mp hFront with rfl | hBefore
    · exact Set.mem_insert _ _
    · exact Set.mem_insert_of_mem _ ⟨front, hBefore, rfl⟩
  · rintro (rfl | ⟨front, hFront, rfl⟩)
    · exact ⟨_, List.prefix_rfl, rfl⟩
    · exact ⟨front, hFront.trans (List.prefix_append _ _), rfl⟩

theorem length_edited_le {keys : List UInt8} {n : Nat} (h : IsGreatest (lengths keys) n) :
    (edited keys).length ≤ n :=
  h.2 ⟨keys, List.prefix_rfl, rfl⟩

/-! ## What the buffer holds -/

/-- After `keys` the buffer holds the text, and behind it what is left of a longer one. -/
structure Holds (maxLen : Nat) (keys : List UInt8) (longest : Nat) (l : Line) : Prop where
  index : l.i = (edited keys).length
  chars : ∀ i < (edited keys).length, (edited keys)[i]? = some (l.buffer i)
  stale : ∀ i < longest, l.buffer i ≠ 0
  clear : ∀ i, longest ≤ i → i ≤ maxLen → l.buffer i = 0
  written : ∀ i ∈ l.written, i < longest
  screen : edited l.echo = edited keys

theorem Holds.start {maxLen : Nat} {buffer : Nat → UInt8} (h : ∀ i ≤ maxLen, buffer i = 0) :
    Holds maxLen [] 0 (.start buffer) where
  index := rfl
  chars i hi := absurd hi (Nat.not_lt_zero i)
  stale i hi := absurd hi (Nat.not_lt_zero i)
  clear := fun i _ => h i
  written _ hi := absurd hi List.not_mem_nil
  screen := rfl

section Step

variable {maxLen longest : Nat} {keys : List UInt8} {l : Line}

/-- A backspace shortens the text and leaves the buffer as it is. -/
theorem Holds.backspace (h : Holds maxLen keys longest l) :
    Holds maxLen (keys ++ [8]) longest (l.take 8) := by
  have hText : edited (keys ++ [8]) = (edited keys).dropLast := edited_concat keys 8
  have hChars : ∀ i < (edited (keys ++ [8])).length,
      (edited (keys ++ [8]))[i]? = some (l.buffer i) := by
    intro i hi
    rw [hText, List.length_dropLast] at hi
    rw [hText, List.getElem?_dropLast, if_pos hi]
    exact h.chars i (by omega)
  rw [Line.take, if_pos rfl]
  split_ifs with hSome
  · refine ⟨?_, hChars, h.stale, h.clear, h.written, ?_⟩
    · rw [hText, List.length_dropLast, ← h.index]
    · rw [Line.putchar, edited_concat, edited_concat, h.screen]
  · have hNil : edited keys = [] := List.length_eq_zero_iff.mp (by have := h.index; omega)
    have hSame : edited (keys ++ [8]) = edited keys := by rw [hText, hNil, List.dropLast_nil]
    exact ⟨hSame ▸ h.index, hChars, h.stale, h.clear, h.written, hSame ▸ h.screen⟩

theorem Holds.character (h : Holds maxLen keys longest l) {c : UInt8} (hBack : c ≠ 8)
    (hNul : c ≠ 0) (hLe : (edited keys).length ≤ longest) :
    Holds maxLen (keys ++ [c]) (max (edited (keys ++ [c])).length longest) (l.take c) := by
  have hText : edited (keys ++ [c]) = edited keys ++ [c] := by
    rw [edited_concat, edit, if_neg hBack]
  have hLength : (edited (keys ++ [c])).length = l.i + 1 := by
    rw [hText, List.length_append, h.index]
    rfl
  have hIndex := h.index
  rw [Line.take, if_neg hBack]
  constructor
  case index => exact hLength.symm
  case chars =>
    intro i hi
    rw [hText]
    dsimp only
    rcases Nat.lt_succ_iff_lt_or_eq.mp (hLength ▸ hi) with hOld | rfl
    · rw [List.getElem?_append_left (by omega), Function.update_of_ne hOld.ne]
      exact h.chars i (by omega)
    · rw [hIndex, List.getElem?_concat_length, Function.update_self]
  case stale =>
    intro i hi
    dsimp only
    by_cases hHere : i = l.i
    · rwa [hHere, Function.update_self]
    · rw [Function.update_of_ne hHere]
      exact h.stale i (by omega)
  case clear =>
    intro i hi hMax
    dsimp only
    rw [Function.update_of_ne (by omega)]
    exact h.clear i (by omega) hMax
  case written =>
    intro i hi
    rcases List.mem_append.mp hi with hOld | hNew
    · exact Nat.lt_of_lt_of_le (h.written i hOld) (Nat.le_max_right _ _)
    · rw [List.mem_singleton.mp hNew, hLength]
      omega
  case screen => rw [Line.putchar, edited_concat, edited_concat, h.screen]

end Step

/-! ## The whole line -/

/-- A key that is no newline, taken while there is room. -/
theorem Holds.take {maxLen longest : Nat} {past : List UInt8} {l : Line} {c : UInt8}
    (h : Holds maxLen past longest l) (hLongest : IsGreatest (lengths past) longest)
    (hMax : longest ≤ maxLen) (hRoom : l.i < maxLen) (hNul : c ≠ 0) :
    ∃ longest', Holds maxLen (past ++ [c]) longest' (l.take c) ∧
      IsGreatest (lengths (past ++ [c])) longest' ∧ longest' ≤ maxLen := by
  have hLe := length_edited_le hLongest
  have hGreatest := hLongest.insert (edited (past ++ [c])).length
  rw [← lengths_concat] at hGreatest
  by_cases hBack : c = 8
  · subst hBack
    have hShorter : (edited (past ++ [8])).length ≤ longest := by
      rw [edited_concat, edit, if_pos rfl, List.length_dropLast]
      omega
    rw [max_eq_right hShorter] at hGreatest
    exact ⟨longest, h.backspace, hGreatest, hMax⟩
  · refine ⟨_, h.character hBack hNul hLe, hGreatest, max_le ?_ hMax⟩
    rw [edited_concat, edit, if_neg hBack, List.length_append, ← h.index]
    exact hRoom

/-- The keys that are left are taken one by one. A newline that ends the line is only echoed. -/
theorem getString_holds {maxLen longest : Nat} {past keys : List UInt8} {l l' : Line}
    (hNul : ∀ c ∈ keys, c ≠ 0) (hHolds : Holds maxLen past longest l)
    (hLongest : IsGreatest (lengths past) longest) (hMax : longest ≤ maxLen)
    (h : getString maxLen keys l = some l') :
    ∃ longest' last, Holds maxLen (past ++ processed maxLen (edited past) keys) longest' last ∧
      IsGreatest (lengths (past ++ processed maxLen (edited past) keys)) longest' ∧
      longest' ≤ maxLen ∧ (l' = last ∨ l' = last.putchar 10) := by
  induction keys generalizing past longest l with
  | nil =>
    rw [getString] at h
    split_ifs at h
    cases h
    rw [processed, List.append_nil]
    exact ⟨longest, _, hHolds, hLongest, hMax, .inl rfl⟩
  | cons c keys ih =>
    rw [getString] at h
    have hIndex := hHolds.index
    split_ifs at h with hRoom hEnd
    · cases h
      rw [processed, if_neg (fun hGo => hGo.2 hEnd), List.append_nil]
      exact ⟨longest, _, hHolds, hLongest, hMax, .inr rfl⟩
    · obtain ⟨hHead, hKeys⟩ := List.forall_mem_cons.mp hNul
      obtain ⟨longest', hHolds', hLongest', hMax'⟩ := hHolds.take hLongest hMax hRoom hHead
      have hRest := ih hKeys hHolds' hLongest' hMax' h
      rw [edited_concat, List.append_assoc] at hRest
      rw [processed, if_pos ⟨by omega, hEnd⟩]
      exact hRest
    · cases h
      rw [processed, if_neg (fun hGo => hRoom (by omega)), List.append_nil]
      exact ⟨longest, _, hHolds, hLongest, hMax, .inl rfl⟩

theorem getString_start {maxLen : Nat} {keys : List UInt8} {buffer : Nat → UInt8} {l : Line}
    (hZero : ∀ i ≤ maxLen, buffer i = 0) (hNul : ∀ c ∈ keys, c ≠ 0)
    (h : getString maxLen keys (.start buffer) = some l) :
    ∃ longest last, Holds maxLen (processed maxLen [] keys) longest last ∧
      IsGreatest (lengths (processed maxLen [] keys)) longest ∧ longest ≤ maxLen ∧
      (l = last ∨ l = last.putchar 10) := by
  have hNone : IsGreatest (lengths []) 0 := by
    refine ⟨⟨[], List.prefix_rfl, rfl⟩, ?_⟩
    rintro _ ⟨front, hFront, rfl⟩
    rw [List.prefix_nil.mp hFront]
    exact Nat.le_refl 0
  exact getString_holds hNul (Holds.start hZero) hNone (Nat.zero_le _) h

/-- What is left behind the text is seen exactly if there is any. -/
theorem Holds.textOf_iff {maxLen longest : Nat} {keys : List UInt8} {l : Line}
    (h : Holds maxLen keys longest l) (hLe : (edited keys).length ≤ longest)
    (hMax : longest ≤ maxLen) (hNul : ∀ c ∈ keys, c ≠ 0) :
    TextOf l.buffer (edited keys) ↔ longest = (edited keys).length := by
  constructor
  · intro hText
    by_contra hLonger
    exact h.stale _ (by omega) hText.terminated
  · intro hEnd
    exact ⟨fun c hMem => hNul c (mem_of_mem_edited hMem), h.chars, h.clear _ hEnd.le (by omega)⟩

theorem mem_processed {maxLen : Nat} {text keys : List UInt8} {c : UInt8}
    (h : c ∈ processed maxLen text keys) : c ∈ keys := by
  induction keys generalizing text with
  | nil => exact h
  | cons d keys ih =>
    rw [processed] at h
    split_ifs at h
    · rcases List.mem_cons.mp h with rfl | hRest
      · exact List.mem_cons_self
      · exact List.mem_cons_of_mem _ (ih hRest)
    · cases h

/-- The line is what was typed, and only indices below `maxLen` were written. -/
def LineRead (maxLen : Nat) (keys : List UInt8) (l : Line) : Prop :=
  (∀ i ∈ l.written, i < maxLen) ∧ TextOf l.buffer (edited (processed maxLen [] keys))

/-- The line that was typed is read back exactly if it was nowhere longer than at its end. -/
theorem getString_iff {maxLen : Nat} {keys : List UInt8} {buffer : Nat → UInt8} {l : Line}
    (hZero : ∀ i ≤ maxLen, buffer i = 0) (hNul : ∀ c ∈ keys, c ≠ 0)
    (h : getString maxLen keys (.start buffer) = some l) :
    LineRead maxLen keys l ↔ ∀ front, front <+: processed maxLen [] keys →
      (edited front).length ≤ (edited (processed maxLen [] keys)).length := by
  obtain ⟨longest, last, hHolds, hLongest, hMax, hLast⟩ := getString_start hZero hNul h
  have hLe := length_edited_le hLongest
  have hSame : l.buffer = last.buffer ∧ l.written = last.written := by
    rcases hLast with rfl | rfl <;> exact ⟨rfl, rfl⟩
  have hWritten : ∀ i ∈ last.written, i < maxLen := fun i hMem =>
    Nat.lt_of_lt_of_le (hHolds.written i hMem) hMax
  rw [LineRead, hSame.1, hSame.2, and_iff_right hWritten,
    hHolds.textOf_iff hLe hMax fun c hMem => hNul c (mem_processed hMem)]
  constructor
  · rintro hEnd front hFront
    exact hEnd ▸ hLongest.2 ⟨front, hFront, rfl⟩
  · intro hFronts
    obtain ⟨front, hFront, hLength⟩ := hLongest.1
    exact Nat.le_antisymm (hLength ▸ hFronts front hFront) hLe

/-- A line that grows again over what was deleted. -/
theorem getString_regrown : ∃ l, getString 99 [97, 98, 8, 99, 10] (.start fun _ => 0) = some l ∧
    (LineRead 99 [97, 98, 8, 99, 10] l ↔ ∀ front, front <+: processed 99 [] [97, 98, 8, 99, 10] →
      (edited front).length ≤ (edited (processed 99 [] [97, 98, 8, 99, 10])).length) :=
  ⟨_, rfl, getString_iff (fun _ _ => rfl) (by simp) rfl⟩

/-- `ab`, a backspace and a newline leave `ab` in the buffer. -/
theorem getString_stale : ¬ ∀ (maxLen : Nat) (keys : List UInt8) (buffer : Nat → UInt8) (l : Line),
    (∀ i ≤ maxLen, buffer i = 0) → (∀ c ∈ keys, c ≠ 0) →
      getString maxLen keys (.start buffer) = some l → LineRead maxLen keys l := by
  intro h
  have hText := (h 99 [97, 98, 8, 10] (fun _ => 0) _ (fun _ _ => rfl) (by simp) rfl).2
  exact absurd hText.terminated (by decide)

/-- What is on the screen when `GetString` returns is the text, whatever is in the buffer. -/
theorem getString_screen {maxLen : Nat} {keys : List UInt8} {buffer : Nat → UInt8} {l : Line}
    (hZero : ∀ i ≤ maxLen, buffer i = 0) (hNul : ∀ c ∈ keys, c ≠ 0)
    (h : getString maxLen keys (.start buffer) = some l) :
    edited l.echo = edited (processed maxLen [] keys) ∨
      edited l.echo = edited (processed maxLen [] keys) ++ [10] := by
  obtain ⟨_, last, hHolds, -, -, rfl | rfl⟩ := getString_start hZero hNul h
  · exact .inl hHolds.screen
  · right
    rw [Line.putchar, edited_concat, hHolds.screen]
    rfl

end Juos.Terminal
