import Juos.DataStructures.String
import Juos.Machine.CString

/-!
# Adding strings

`String::add` among any number of strings, which are built from texts and from lengths and changed
by `setText`, `setLength` and `add`. Where each array is `Placed`, with a free byte behind it for
the terminator, every string has a text that ends inside its size (`Sound`).

`add` makes room for the two sizes together and copies as many bytes as are left of it behind the
text. It is right about any two strings, and about a string that is added to itself if its size is
the length of its text; the bytes that it reads lie in the other string in that case only
(`concatenates_throughout_iff`).
-/

namespace Juos.DataStructures

open Machine

/-! ## Loops over an array -/

namespace CharHeap

variable {h : CharHeap} {a b first n k l : Nat} {f : CharHeap → Nat → Nat}

theorem putAll_succ (h : CharHeap) (a : Nat) (f : CharHeap → Nat → Nat) (first n : Nat) :
    h.putAll a f first (n + 1) = (h.putAll a f first n).put (a + (first + n))
      (f (h.putAll a f first n) (first + n)) := by
  rw [putAll, List.range'_concat, List.foldl_append, Nat.one_mul]
  rfl

/-- The loop leaves every range alone that is apart from what it stores to. -/
theorem sameOn_putAll (hApart : Apart (a + first) n b l) :
    SameOn h.mem (h.putAll a f first n).mem b l := by
  induction n with
  | zero => exact .refl _ _ _
  | succ n ih =>
    rw [putAll_succ]
    refine (ih (hApart.sub (by omega) (by omega))).trans (sameOn_store8 _ _ ?_)
    exact hApart.sub (by omega) (by omega)

/-- Each place holds what was computed when the loop came to it. -/
theorem load8_putAll (hk : k < n) (hn : n ≤ 4294967296) :
    load8 (h.putAll a f first n).mem (a + (first + k)) =
      f (h.putAll a f first k) (first + k) % 256 := by
  induction n with
  | zero => exact absurd hk (Nat.not_lt_zero k)
  | succ n ih =>
    rw [putAll_succ]
    rcases Nat.lt_succ_iff_lt_or_eq.mp hk with hLt | rfl
    · exact (load8_store8_of_ne _ _ (by omega)).trans (ih hLt (by omega))
    · exact load8_store8 _ _ _

/-- A loop that copies from elsewhere. -/
theorem load8_putAll_copy {source : Nat} (hCopy : ∀ h i, f h i = load8 h.mem (source + (i - first)))
    (hApart : Apart (a + first) n source l) (hk : k < n) (hl : k < l) (hn : n ≤ 4294967296) :
    load8 (h.putAll a f first n).mem (a + (first + k)) = load8 h.mem (source + k) := by
  rw [load8_putAll hk hn, hCopy, Nat.add_sub_cancel_left, Nat.mod_eq_of_lt (load8_lt _ _)]
  exact sameOn_putAll (hApart.sub (by omega) (by omega)) k hl

end CharHeap

namespace String

/-- The constructor with a length. -/
def ofLength (m : Memory) (initSize address : Nat) : String × CharHeap :=
  let h := newChars m address initSize
  (⟨address, initSize⟩, if address ≠ 0 then h.putAll address (fun _ _ => 0) 0 initSize else h)

/-- The offsets in the other string that the loop of `add` reads. -/
def addReads (fuel : Nat) (m : Memory) (s : String) (textSize address : Nat) : Option (List Nat) :=
  let newSize := (s.size + textSize) % 4294967296
  (s.setLength fuel m newSize address).bind fun r =>
    (r.1.getLength fuel r.2.mem).map fun length =>
      (List.range' length (newSize - length)).map fun i => i - length

section Operations

variable {m : Memory} {s t : String} {text ts tt : List UInt8} {fuel size address p k n : Nat}
  {r : String × CharHeap}

theorem strlen_eq (h : TextAt m p text) {len : Nat} (hLen : len ≤ text.length)
    (hFuel : text.length < len + fuel) : strlen m p fuel len = some text.length := by
  induction fuel generalizing len with
  | zero => omega
  | succ fuel ih =>
    rw [strlen]
    rcases Nat.eq_or_lt_of_le hLen with rfl | hLt
    · exact if_pos h.end_eq
    · rw [if_neg (h.char_ne_zero hLt)]
      exact ih hLt (by omega)

theorem lt_of_strlen {len : Nat} (h : strlen m p fuel len = some n) : n < len + fuel := by
  induction fuel generalizing len with
  | zero => cases h
  | succ fuel ih =>
    rw [strlen] at h
    split_ifs at h
    · cases h
      omega
    · have := ih h
      omega

theorem length_of_strlen (hText : TextAt m p text) (h : strlen m p fuel 0 = some n) :
    n = text.length := by
  obtain ⟨hEnd, hBefore⟩ := strlen_spec h nofun
  have hUnique := (textAt_map_range hBefore hEnd).unique hText
  rw [← hUnique, List.length_map, List.length_range]

/-- What an operation leaves: a string in its new array, a NUL in it or right behind it, and
everything else as it was. -/
structure Made (m : Memory) (address size : Nat) (r : String × CharHeap) : Prop where
  string : r.1 = ⟨address, size⟩
  nul : ∃ k ≤ size, load8 r.2.mem (address + k) = 0
  frame : ∀ b n, Apart address (size + 1) b n → SameOn m r.2.mem b n

/-- `setLength` leaves a NUL behind the new array. -/
theorem setLength_made (hRun : s.setLength fuel m size address = some r) :
    Made m address size r ∧ load8 r.2.mem (address + size) = 0 := by
  obtain ⟨oldLength, -, rfl⟩ := Option.map_eq_some_iff.mp hRun
  have hEnd := load8_store8 ((newChars m address size).putAll address
    (fun h i => if i < oldLength then load8 h.mem (s.data + i) else 0) 0 size).mem
    (address + size) 0
  refine ⟨⟨rfl, ⟨size, Nat.le_refl _, hEnd⟩, fun b n hApart => ?_⟩, hEnd⟩
  exact (CharHeap.sameOn_putAll (hApart.sub (by omega) (by omega))).trans
    (sameOn_store8 _ _ (hApart.sub (by omega) (by omega)))

/-- The new array holds the old text as far as it fits, and zeros behind it. -/
theorem load8_setLength (hRun : s.setLength fuel m size address = some r)
    (hText : TextAt m s.data text) (hSize : size < 4294967296)
    (hApart : Apart address (size + 1) s.data (text.length + 1)) (hk : k < size) :
    load8 r.2.mem (address + k) = if k < text.length then load8 m (s.data + k) else 0 := by
  obtain ⟨oldLength, hOld, rfl⟩ := Option.map_eq_some_iff.mp hRun
  obtain rfl : oldLength = text.length := length_of_strlen hText hOld
  refine (load8_store8_of_ne _ _ (by omega)).trans ?_
  have hPlace : load8 ((newChars m address size).putAll address
      (fun h i => if i < text.length then load8 h.mem (s.data + i) else 0) 0 size).mem
      (address + (0 + k)) = _ := CharHeap.load8_putAll hk hSize.le
  rw [Nat.zero_add] at hPlace
  rw [hPlace]
  split_ifs with hInside
  · rw [Nat.mod_eq_of_lt (load8_lt _ _)]
    exact CharHeap.sameOn_putAll (hApart.sub (by omega) (by omega)) k (Nat.lt_succ_of_lt hInside)
  · rfl

theorem setLength_text (hRun : s.setLength fuel m size address = some r)
    (hText : TextAt m s.data text) (hSize : size < 4294967296)
    (hApart : Apart address (size + 1) s.data (text.length + 1)) :
    TextAt r.2.mem address (text.take size) := by
  have hPut := fun k => load8_setLength (k := k) hRun hText hSize hApart
  refine textAt_iff.mpr ⟨fun k hk => ?_, ?_⟩
  · rw [List.length_take] at hk
    rw [List.getElem_take, hPut k (by omega), if_pos (by omega)]
    exact (textAt_iff.mp hText).1 k (by omega)
  · rw [List.length_take]
    rcases Nat.lt_or_ge text.length size with hShort | hLong
    · rw [Nat.min_eq_right hShort.le, hPut _ hShort, if_neg (Nat.lt_irrefl _)]
    · rw [Nat.min_eq_left hLong]
      exact (setLength_made hRun).2

theorem strncpy_made (h : CharHeap) (destination source num : Nat) :
    (∃ k ≤ num, load8 (strncpy h destination source num).mem (destination + k) = 0) ∧
      ∀ b n, Apart destination (num + 1) b n →
        SameOn h.mem (strncpy h destination source num).mem b n := by
  induction num generalizing h destination source with
  | zero =>
    exact ⟨⟨0, Nat.le_refl 0, load8_store8 _ _ _⟩, fun b n hApart => sameOn_store8 _ _ hApart⟩
  | succ num ih =>
    have hFirst : ∀ {b n}, Apart destination (num + 1 + 1) b n → ∀ v,
        SameOn h.mem (h.put destination v).mem b n := fun hApart v =>
      sameOn_store8 _ v (hApart.sub (by omega) (by omega))
    rw [strncpy]
    split_ifs with hNul
    · exact ⟨⟨0, Nat.zero_le _, load8_store8 _ _ _⟩, fun b n hApart => hFirst hApart 0⟩
    · obtain ⟨⟨k, hk, hEnd⟩, hFrame⟩ := ih (h.put destination (load8 h.mem source))
        (destination + 1) (source + 1)
      refine ⟨⟨k + 1, Nat.succ_le_succ hk, ?_⟩, fun b n hApart => ?_⟩
      · rwa [Nat.add_comm k 1, ← Nat.add_assoc]
      · exact (hFirst hApart _).trans (hFrame b n (hApart.sub (by omega) (by omega)))

/-- A new array that a text is copied to. -/
theorem copied_made (m : Memory) (address size source : Nat) :
    Made m address size (⟨address, size⟩, strncpy (newChars m address size) address source size) :=
  ⟨rfl, (strncpy_made ..).1, (strncpy_made ..).2⟩

theorem ofText_made (hRun : ofText fuel m p address = some r) :
    ∃ text, TextAt m p text ∧ (address ≠ 0 → Made m address text.length r) := by
  obtain ⟨size, hSize, rfl⟩ := Option.map_eq_some_iff.mp hRun
  obtain ⟨hEnd, hBefore⟩ := strlen_spec hSize nofun
  refine ⟨_, textAt_map_range hBefore hEnd, fun hNull => ?_⟩
  rw [List.length_map, List.length_range]
  dsimp only
  rw [if_pos hNull]
  exact copied_made m address size p

theorem setText_made (hRun : setText fuel m p address = some r) :
    ∃ text, TextAt m p text ∧ Made m address text.length r := by
  obtain ⟨size, hSize, rfl⟩ := Option.map_eq_some_iff.mp hRun
  obtain ⟨hEnd, hBefore⟩ := strlen_spec hSize nofun
  refine ⟨_, textAt_map_range hBefore hEnd, ?_⟩
  rw [List.length_map, List.length_range]
  exact copied_made m address size p

theorem ofLength_made (hNull : address ≠ 0) (hSize : size < 4294967296)
    (hNul : size = 0 → load8 m address = 0) : Made m address size (ofLength m size address) := by
  rw [ofLength, if_pos hNull]
  refine ⟨rfl, ⟨0, Nat.zero_le _, ?_⟩, fun b n hApart =>
    CharHeap.sameOn_putAll (hApart.sub (by omega) (by omega))⟩
  rcases Nat.eq_zero_or_pos size with rfl | hPos
  · exact hNul rfl
  · have hPlace : load8 ((newChars m address size).putAll address (fun _ _ => 0) 0 size).mem
        (address + (0 + 0)) = _ := CharHeap.load8_putAll hPos hSize.le
    exact hPlace

theorem add_made {text : String → String} (hRun : s.add fuel m n text address = some r)
    (hBound : s.size + n < 4294967296) : Made m address (s.size + n) r := by
  obtain ⟨⟨s', h⟩, hSet, hRest⟩ := Option.bind_eq_some_iff.mp hRun
  obtain ⟨length, -, rfl⟩ := Option.map_eq_some_iff.mp hRest
  rw [Nat.mod_eq_of_lt hBound] at hSet ⊢
  obtain ⟨hMade, hEnd⟩ := setLength_made hSet
  obtain rfl : s' = ⟨address, s.size + n⟩ := hMade.string
  have hFrame : ∀ b l, Apart address (s.size + n) b l → SameOn h.mem (h.putAll address
      (fun h i => load8 h.mem ((text ⟨address, s.size + n⟩).data + (i - length))) length
      (s.size + n - length)).mem b l := fun b l hApart =>
    CharHeap.sameOn_putAll fun i hi j hj => by
      have hNe := hApart (length + i) (by omega) j hj
      rwa [← Nat.add_assoc] at hNe
  refine ⟨rfl, ⟨s.size + n, Nat.le_refl _, ?_⟩, fun b l hApart => ?_⟩
  · refine (hFrame (address + (s.size + n)) 1 ?_ 0 Nat.zero_lt_one).trans hEnd
    intro i hi j hj
    omega
  · exact (hMade.frame b l hApart).trans (hFrame b l (hApart.sub (by omega) (by omega)))

/-- What `add` makes of a string, once it has its new array. -/
theorem add_eq {newSize : Nat} (text : String → String) (hText : TextAt m s.data ts)
    (hFuel : ts.length < fuel) (hNew : s.size + n = newSize) (hBound : newSize < 4294967296)
    (hFits : ts.length ≤ s.size) (hApart : Apart address (newSize + 1) s.data (ts.length + 1)) :
    ∃ h : CharHeap, Made m address newSize (⟨address, newSize⟩, h) ∧ TextAt h.mem address ts ∧
      load8 h.mem (address + newSize) = 0 ∧
      s.add fuel m n text address = some (⟨address, newSize⟩, h.putAll address
        (fun h i => load8 h.mem ((text ⟨address, newSize⟩).data + (i - ts.length)))
        ts.length (newSize - ts.length)) ∧
      s.addReads fuel m n address = some (List.range (newSize - ts.length)) := by
  have hMod : (s.size + n) % 4294967296 = newSize := by rw [hNew, Nat.mod_eq_of_lt hBound]
  obtain ⟨⟨r, h⟩, hRun⟩ : ∃ r, s.setLength fuel m newSize address = some r := by
    rw [setLength, getLength, strlen_eq hText (Nat.zero_le _) (by omega)]
    exact ⟨_, rfl⟩
  obtain ⟨hMade, hEnd⟩ := setLength_made hRun
  obtain rfl : r = ⟨address, newSize⟩ := hMade.string
  have hCopied := setLength_text hRun hText hBound hApart
  rw [List.take_of_length_le (by omega)] at hCopied
  have hLength : getLength fuel h.mem ⟨address, newSize⟩ = some ts.length :=
    strlen_eq hCopied (Nat.zero_le _) (by omega)
  have hReads : (List.range' ts.length (newSize - ts.length)).map (fun i => i - ts.length) =
      List.range (newSize - ts.length) := by
    rw [List.range'_eq_map_range, List.map_map]
    exact (List.map_congr_left fun i _ => Nat.add_sub_cancel_left ..).trans (List.map_id _)
  refine ⟨h, hMade, hCopied, hEnd, ?_, ?_⟩
  · rw [add, hMod, hRun, Option.bind_some, hLength, Option.map_some]
  · rw [addReads, hMod, hRun, Option.bind_some, hLength, Option.map_some, hReads]

end Operations

/-! ## The loop of `add` -/

section Loop

variable {h : CharHeap} {ts tt : List UInt8} {address data newSize k n : Nat}

/-- The loop of `add` with the text at `data`. -/
def addLoop (h : CharHeap) (address data length n : Nat) : CharHeap :=
  h.putAll address (fun h i => load8 h.mem (data + (i - length))) length n

/-- The loop stores neither before the old text's end nor behind the new array. -/
theorem addLoop_outside (hk : k < ts.length ∨ ts.length + n ≤ k) (hn : ts.length + n < 4294967296)
    (hBound : k < 4294967296) :
    load8 (addLoop h address data ts.length n).mem (address + k) = load8 h.mem (address + k) :=
  CharHeap.sameOn_putAll (b := address + k) (l := 1) (fun i hi j hj => by omega) 0 Nat.zero_lt_one

/-- Another string's text comes behind the old one. -/
theorem addLoop_other (hts : TextAt h.mem address ts) (htt : TextAt h.mem data tt)
    (hEnd : load8 h.mem (address + newSize) = 0) (hLength : ts.length + tt.length ≤ newSize)
    (hBound : newSize < 4294967296) (hApart : Apart address (newSize + 1) data (tt.length + 1)) :
    TextAt (addLoop h address data ts.length (newSize - ts.length)).mem address (ts ++ tt) := by
  have hCopy : ∀ k ≤ tt.length, k < newSize - ts.length →
      load8 (addLoop h address data ts.length (newSize - ts.length)).mem
        (address + (ts.length + k)) = load8 h.mem (data + k) := fun k hk hn =>
    CharHeap.load8_putAll_copy (fun _ _ => rfl) (hApart.sub (by omega) (by omega)) hn
      (Nat.lt_succ_of_le hk) (by omega)
  refine textAt_iff.mpr ⟨fun k hk => ?_, ?_⟩
  · rw [List.length_append] at hk
    rcases Nat.lt_or_ge k ts.length with hOld | hNew
    · rw [List.getElem_append_left hOld, addLoop_outside (.inl hOld) (by omega) (by omega)]
      exact (textAt_iff.mp hts).1 k hOld
    · obtain ⟨j, rfl⟩ := Nat.exists_eq_add_of_le hNew
      have hj : j < tt.length := by omega
      rw [hCopy j hj.le (by omega)]
      simpa using (textAt_iff.mp htt).1 j hj
  · rw [List.length_append]
    rcases Nat.eq_or_lt_of_le hLength with hFull | hMore
    · rw [addLoop_outside (.inr (by omega)) (by omega) (by omega), hFull]
      exact hEnd
    · rw [hCopy _ (Nat.le_refl _) (by omega)]
      exact htt.end_eq

/-- A string that is added to itself is read where it is being written: its text is repeated as
long as there is room. -/
theorem addLoop_self (hPos : 0 < ts.length) (hn : ts.length + n ≤ 4294967296)
    (hk : k < ts.length + n) :
    load8 (addLoop h address address ts.length n).mem (address + k) =
      load8 h.mem (address + k % ts.length) := by
  induction n generalizing k with
  | zero =>
    rw [Nat.mod_eq_of_lt (show k < ts.length from hk)]
    rfl
  | succ n ih =>
    rw [addLoop, CharHeap.putAll_succ]
    obtain hOld | rfl : k < ts.length + n ∨ k = ts.length + n := by omega
    · exact (load8_store8_of_ne _ _ (by omega)).trans (ih (by omega) hOld)
    · refine (load8_store8 _ _ _).trans ?_
      rw [Nat.mod_eq_of_lt (load8_lt _ _), Nat.add_sub_cancel_left, Nat.add_mod_left]
      exact ih (by omega) (by omega)

theorem addLoop_twice (hts : TextAt h.mem address ts)
    (hEnd : load8 h.mem (address + (ts.length + ts.length)) = 0)
    (hBound : ts.length + ts.length < 4294967296) :
    TextAt (addLoop h address address ts.length ts.length).mem address (ts ++ ts) := by
  refine textAt_iff.mpr ⟨fun k hk => ?_, ?_⟩
  · have hTwice : k < ts.length + ts.length := by rwa [List.length_append] at hk
    have hPos : 0 < ts.length := by omega
    have hMod : k % ts.length < ts.length := Nat.mod_lt k hPos
    have hChar : (ts ++ ts)[k] = ts[k % ts.length] := by
      rcases Nat.lt_or_ge k ts.length with hOld | hNew
      · simp only [List.getElem_append_left hOld, Nat.mod_eq_of_lt hOld]
      · obtain ⟨j, rfl⟩ := Nat.exists_eq_add_of_le hNew
        have hj : j < ts.length := by omega
        simp [Nat.mod_eq_of_lt hj]
    rw [addLoop_self hPos hBound.le hTwice, hChar]
    exact (textAt_iff.mp hts).1 _ hMod
  · rw [List.length_append, addLoop_outside (.inr (Nat.le_refl _)) hBound hBound]
    exact hEnd

/-- With more room than for two texts, a third one begins behind them. -/
theorem addLoop_more (hts : TextAt h.mem address ts) (hPos : 0 < ts.length)
    (hMore : ts.length < n) (hBound : ts.length + n ≤ 4294967296) :
    ¬ TextAt (addLoop h address address ts.length n).mem address (ts ++ ts) := by
  intro hTwice
  have hEnd := hTwice.end_eq
  rw [List.length_append, addLoop_self hPos hBound (by omega), Nat.add_mod_left, Nat.mod_self]
    at hEnd
  exact hts.char_ne_zero hPos hEnd

/-- Where there is no text, every byte is copied onto itself. -/
theorem addLoop_self_nil (hn : n ≤ 4294967296) (hk : k < 4294967296) :
    load8 (addLoop h address address 0 n).mem (address + k) = load8 h.mem (address + k) := by
  induction n with
  | zero => rfl
  | succ n ih =>
    rw [addLoop, CharHeap.putAll_succ, Nat.zero_add, Nat.sub_zero]
    by_cases hHere : k = n
    · subst hHere
      refine (load8_store8 _ _ _).trans ?_
      rw [Nat.mod_eq_of_lt (load8_lt _ _)]
      exact ih (by omega)
    · exact (load8_store8_of_ne _ _ (by omega)).trans (ih (by omega))

end Loop

section Adding

variable {m : Memory} {s t : String} {ts tt : List UInt8} {address fuel : Nat} {reads : List Nat}

/-- Another string is added, with as many bytes of it as there is room for. -/
theorem add_other (hts : TextAt m s.data ts) (htt : TextAt m t.data tt)
    (hFits : ts.length ≤ s.size) (hFits' : tt.length ≤ t.size)
    (hBound : s.size + t.size < 4294967296)
    (hOwn : Apart address (s.size + t.size + 1) s.data (s.size + 1))
    (hOther : Apart address (s.size + t.size + 1) t.data (t.size + 1)) (hFuel : ts.length < fuel) :
    ∃ r, s.add fuel m t.size (fun _ => t) address = some r ∧
      s.addReads fuel m t.size address = some (List.range (s.size + t.size - ts.length)) ∧
      TextAt r.2.mem r.1.data (ts ++ tt) ∧ SameOn m r.2.mem t.data (t.size + 1) := by
  have hApart : Apart address (s.size + t.size + 1) s.data (ts.length + 1) :=
    hOwn.sub (by omega) (by omega)
  obtain ⟨h, hMade, hText, hEnd, hAdd, hReads⟩ := add_eq (fun _ => t) hts hFuel rfl hBound hFits
    hApart
  have hSame := hMade.frame _ _ hOther
  refine ⟨_, hAdd, hReads, ?_, (add_made hAdd hBound).frame _ _ hOther⟩
  exact addLoop_other hText (htt.congr (hSame.sub (by omega))) hEnd (by omega) hBound
    (hOther.sub (by omega) (by omega))

/-- A string is added to itself; its text comes twice only if there is room for no more. -/
theorem add_self (hts : TextAt m s.data ts) (hFits : ts.length ≤ s.size)
    (hBound : s.size + s.size < 4294967296)
    (hOwn : Apart address (s.size + s.size + 1) s.data (s.size + 1)) (hFuel : ts.length < fuel) :
    ∃ r, s.add fuel m s.size id address = some r ∧ r.1.size = s.size + s.size ∧
      s.addReads fuel m s.size address = some (List.range (s.size + s.size - ts.length)) ∧
      (TextAt r.2.mem r.1.data (ts ++ ts) ↔ s.size = ts.length ∨ ts = []) := by
  have hApart : Apart address (s.size + s.size + 1) s.data (ts.length + 1) :=
    hOwn.sub (by omega) (by omega)
  obtain ⟨h, -, hText, hEnd, hAdd, hReads⟩ := add_eq id hts hFuel rfl hBound hFits hApart
  refine ⟨_, hAdd, rfl, hReads, ?_⟩
  constructor
  · intro hTwice
    by_contra hNot
    push Not at hNot
    exact addLoop_more hText (List.length_pos_iff.mpr hNot.2) (by omega) (by omega) hTwice
  · rintro (hSize | rfl)
    · have hRoom : s.size + s.size - ts.length = ts.length := by omega
      rw [hSize] at hEnd
      have hTwice := addLoop_twice hText hEnd (by omega)
      dsimp only
      rw [hRoom]
      exact hTwice
    · refine textAt_iff.mpr ⟨fun k hk => absurd hk (Nat.not_lt_zero k), ?_⟩
      exact (addLoop_self_nil (by omega) (by decide)).trans hText.end_eq

/-- The old text was measured within the fuel. -/
theorem lt_of_addReads {n : Nat} (hts : TextAt m s.data ts)
    (h : s.addReads fuel m n address = some reads) : ts.length < fuel := by
  obtain ⟨r, hSet, -⟩ := Option.bind_eq_some_iff.mp h
  obtain ⟨oldLength, hOld, -⟩ := Option.map_eq_some_iff.mp hSet
  have hLt := lt_of_strlen hOld
  rwa [length_of_strlen hts hOld, Nat.zero_add] at hLt

end Adding

end String

/-! ## Sequences of calls -/

/-- The strings that were constructed so far. -/
structure Pool (ι : Type) where
  strings : ι → Option String
  mem : Memory

inductive ConcatCall (ι : Type) where
  | ofText (i : ι) (data : Nat)
  | ofLength (i : ι) (initSize : UInt32)
  | setText (i : ι) (text : Nat)
  | setLength (i : ι) (size : UInt32)
  | add (i j : ι)

section Runs

variable {ι : Type} [DecidableEq ι]

/-- The string that the call is made on. -/
def ConcatCall.target : ConcatCall ι → ι
  | ofText i _ | ofLength i _ | setText i _ | setLength i _ | add i _ => i

/-- What the call leaves when operator `new` returns `address`. -/
def ConcatCall.exec (fuel : Nat) (p : Pool ι) (address : Nat) :
    ConcatCall ι → Option (String × CharHeap)
  | ofText _ data => String.construct fuel p.mem data address
  | ofLength _ initSize => some (String.ofLength p.mem initSize.toNat address)
  | setText i text => (p.strings i).bind fun _ => String.setText fuel p.mem text address
  | setLength i size => (p.strings i).bind fun s => s.setLength fuel p.mem size.toNat address
  | add i j => (p.strings i).bind fun s => (p.strings j).bind fun t =>
      s.add fuel p.mem t.size (fun string => if j = i then string else t) address

def ConcatStep (p : Pool ι) (e : ConcatCall ι × Nat) (q : Pool ι) : Prop :=
  ∃ fuel r, e.1.exec fuel p e.2 = some r ∧
    q = ⟨Function.update p.strings e.1.target (some r.1), r.2.mem⟩

/-- The new array and the byte behind it are apart from those of the other strings. -/
structure Room (p : Pool ι) (i : ι) (address size : Nat) : Prop where
  nonnull : address ≠ 0
  others : ∀ k ≠ i, ∀ s, p.strings k = some s → Apart address (size + 1) s.data (s.size + 1)

/-- Operator `new` finds an array with a free byte behind it, which is needed for the terminator;
a string of length 0 finds a NUL there. A string that is added to is read while its new array is
written, and the two sizes do not wrap. -/
def Placed (p : Pool ι) : ConcatCall ι × Nat → Prop
  | (.ofText i data, address) => ∀ text, TextAt p.mem data text → Room p i address text.length
  | (.ofLength i initSize, address) =>
    Room p i address initSize.toNat ∧ (initSize.toNat = 0 → load8 p.mem address = 0)
  | (.setText i data, address) => ∀ text, TextAt p.mem data text → Room p i address text.length
  | (.setLength i size, address) => Room p i address size.toNat
  | (.add i j, address) => ∀ s t, p.strings i = some s → p.strings j = some t →
      s.size + t.size < 4294967296 ∧ Room p i address (s.size + t.size) ∧
        Apart address (s.size + t.size + 1) s.data (s.size + 1)

/-- The arrays are apart, and every text ends in its array or right behind it. -/
structure Sound (p : Pool ι) : Prop where
  apart : ∀ i j s t, i ≠ j → p.strings i = some s → p.strings j = some t →
    Apart s.data (s.size + 1) t.data (t.size + 1)
  nul : ∀ i s, p.strings i = some s → ∃ k ≤ s.size, load8 p.mem (s.data + k) = 0

variable {p q : Pool ι} {i j : ι} {address size fuel : Nat} {e : ConcatCall ι × Nat}
  {r : String × CharHeap}

omit [DecidableEq ι] in
theorem Sound.empty (m : Memory) : Sound (⟨fun _ => none, m⟩ : Pool ι) :=
  ⟨fun _ _ _ _ _ hs => (nomatch hs), fun _ _ hs => (nomatch hs)⟩

theorem Sound.update (h : Sound p) (hRoom : Room p i address size)
    (hMade : String.Made p.mem address size r) :
    Sound ⟨Function.update p.strings i (some r.1), r.2.mem⟩ := by
  have hNew : r.1 = ⟨address, size⟩ := hMade.string
  constructor
  case apart =>
    intro k l s t hne hs ht
    dsimp only at hs ht
    by_cases hk : k = i
    · subst hk
      rw [Function.update_self] at hs
      rw [Function.update_of_ne hne.symm] at ht
      obtain rfl := Option.some.inj hs
      rw [hNew]
      exact hRoom.others l hne.symm t ht
    · rw [Function.update_of_ne hk] at hs
      by_cases hl : l = i
      · subst hl
        rw [Function.update_self] at ht
        obtain rfl := Option.some.inj ht
        rw [hNew]
        exact (hRoom.others k hk s hs).symm
      · rw [Function.update_of_ne hl] at ht
        exact h.apart k l s t hne hs ht
  case nul =>
    intro k s hs
    dsimp only at hs
    by_cases hk : k = i
    · subst hk
      rw [Function.update_self] at hs
      obtain rfl := Option.some.inj hs
      rw [hNew]
      exact hMade.nul
    · rw [Function.update_of_ne hk] at hs
      obtain ⟨n, hn, hNul⟩ := h.nul k s hs
      refine ⟨n, hn, ?_⟩
      rw [hMade.frame _ _ (hRoom.others k hk s hs) n (Nat.lt_succ_of_le hn)]
      exact hNul

/-- What every placed call leaves. -/
theorem made_of_placed (hPlaced : Placed p e) (hExec : e.1.exec fuel p e.2 = some r) :
    ∃ size, Room p e.1.target e.2 size ∧ String.Made p.mem e.2 size r := by
  obtain ⟨c, address⟩ := e
  cases c with
  | ofText i data =>
    obtain ⟨text, hText, hMade⟩ := String.ofText_made hExec
    exact ⟨_, hPlaced text hText, hMade (hPlaced text hText).nonnull⟩
  | ofLength i initSize =>
    obtain ⟨hRoom, hNul⟩ := hPlaced
    cases hExec
    exact ⟨_, hRoom, String.ofLength_made hRoom.nonnull initSize.toNat_lt hNul⟩
  | setText i text =>
    obtain ⟨s, hs, hRun⟩ := Option.bind_eq_some_iff.mp hExec
    obtain ⟨text, hText, hMade⟩ := String.setText_made hRun
    exact ⟨_, hPlaced text hText, hMade⟩
  | setLength i size =>
    obtain ⟨s, hs, hRun⟩ := Option.bind_eq_some_iff.mp hExec
    exact ⟨_, hPlaced, (String.setLength_made hRun).1⟩
  | add i j =>
    obtain ⟨s, hs, hRest⟩ := Option.bind_eq_some_iff.mp hExec
    obtain ⟨t, ht, hRun⟩ := Option.bind_eq_some_iff.mp hRest
    obtain ⟨hBound, hRoom, -⟩ := hPlaced s t hs ht
    exact ⟨_, hRoom, String.add_made hRun hBound⟩

/-- After `s.add(t)` the text of `s` is followed by that of `t`, nothing behind the array of `t` was
read, and another `t` is as it was. -/
def Concatenates (p : Pool ι) : ConcatCall ι × Nat → Prop
  | (.add i j, address) => ∀ s t ts tt, p.strings i = some s → p.strings j = some t →
      TextAt p.mem s.data ts → TextAt p.mem t.data tt →
      ∃ fuel r reads, (ConcatCall.add i j).exec fuel p address = some r ∧
        s.addReads fuel p.mem t.size address = some reads ∧
        (∀ x ∈ reads, x < (if j = i then r.1 else t).size) ∧
        TextAt r.2.mem r.1.data (ts ++ tt) ∧
        (j ≠ i → SameOn p.mem r.2.mem t.data (t.size + 1))
  | _ => True

/-- The size of the string that is added to is the length of its text, or it has no text and is
added to itself. -/
def SizesMatch (p : Pool ι) : ConcatCall ι × Nat → Prop
  | (.add i j, _) => ∀ s t ts, p.strings i = some s → p.strings j = some t →
      TextAt p.mem s.data ts → s.size = ts.length ∨ j = i ∧ ts = []
  | _ => True

omit [DecidableEq ι] in
theorem Sound.text (h : Sound p) {s : String} (hs : p.strings i = some s) :
    ∃ ts, TextAt p.mem s.data ts ∧ ts.length ≤ s.size := by
  obtain ⟨k, hk, hNul⟩ := h.nul i s hs
  obtain ⟨ts, hText, hLength⟩ := exists_textAt hNul
  exact ⟨ts, hText, hLength.trans hk⟩

omit [DecidableEq ι] in
theorem Sound.text_fits (h : Sound p) {s : String} {ts : List UInt8}
    (hs : p.strings i = some s) (hts : TextAt p.mem s.data ts) : ts.length ≤ s.size := by
  obtain ⟨text, hText, hFits⟩ := h.text hs
  rwa [hts.unique hText]

theorem exec_add_other {s t : String} (hs : p.strings i = some s) (ht : p.strings j = some t)
    (hj : j ≠ i) : (ConcatCall.add i j).exec fuel p address =
      s.add fuel p.mem t.size (fun _ => t) address := by
  rw [ConcatCall.exec, hs, ht, Option.bind_some, Option.bind_some]
  simp only [hj, if_false]

theorem exec_add_self {s : String} (hs : p.strings i = some s) :
    (ConcatCall.add i i).exec fuel p address = s.add fuel p.mem s.size id address := by
  rw [ConcatCall.exec, hs, Option.bind_some, Option.bind_some]
  simp only [if_true]
  rfl

theorem sizesMatch_of_concatenates (hSound : Sound p) (hPlaced : Placed p (.add i j, address))
    (h : Concatenates p (.add i j, address)) : SizesMatch p (.add i j, address) := by
  intro s t ts hs ht hts
  obtain ⟨hBound, hRoom, hOwn⟩ := hPlaced s t hs ht
  have hFits := hSound.text_fits hs hts
  obtain ⟨tt, htt, hFits'⟩ := hSound.text ht
  obtain ⟨fuel, r, reads, hExec, hReads, hInside, hText, -⟩ := h s t ts tt hs ht hts htt
  have hFuel := String.lt_of_addReads hts hReads
  by_cases hj : j = i
  · subst hj
    obtain rfl : s = t := Option.some.inj (hs.symm.trans ht)
    obtain rfl := hts.unique htt
    obtain ⟨r', hAdd, -, -, hTwice⟩ := String.add_self hts hFits hBound hOwn hFuel
    rw [exec_add_self hs, hAdd] at hExec
    obtain rfl := Option.some.inj hExec
    exact (hTwice.mp hText).imp_right fun hNil => ⟨rfl, hNil⟩
  · -- the last byte that is read lies in the array of the other string
    have hOther := hRoom.others j hj t ht
    obtain ⟨_, -, hReads', -⟩ := String.add_other hts htt hFits hFits' hBound hOwn hOther hFuel
    rw [hReads'] at hReads
    obtain rfl := Option.some.inj hReads
    simp only [hj, if_false, List.mem_range] at hInside
    by_contra hNot
    push Not at hNot
    have := hInside t.size (by omega)
    omega

theorem concatenates_of_sizesMatch (hSound : Sound p) (hPlaced : Placed p (.add i j, address))
    (h : SizesMatch p (.add i j, address)) : Concatenates p (.add i j, address) := by
  intro s t ts tt hs ht hts htt
  obtain ⟨hBound, hRoom, hOwn⟩ := hPlaced s t hs ht
  have hFits := hSound.text_fits hs hts
  have hFits' := hSound.text_fits ht htt
  have hFuel := Nat.lt_succ_self ts.length
  have hMatch := h s t ts hs ht hts
  by_cases hj : j = i
  · subst hj
    obtain rfl : s = t := Option.some.inj (hs.symm.trans ht)
    obtain rfl := hts.unique htt
    obtain ⟨r, hAdd, hSize, hReads, hTwice⟩ :=
      String.add_self hts hFits hBound hOwn hFuel
    refine ⟨_, r, _, (exec_add_self hs).trans hAdd, hReads, fun x hx => ?_,
      hTwice.mpr (hMatch.imp_right And.right), fun hne => absurd rfl hne⟩
    have hx := List.mem_range.mp hx
    rw [if_pos rfl, hSize]
    omega
  · obtain ⟨r, hAdd, hReads, hText, hSame⟩ := String.add_other hts htt hFits hFits' hBound hOwn
      (hRoom.others j hj t ht) hFuel
    refine ⟨_, r, _, (exec_add_other hs ht hj).trans hAdd, hReads, fun x hx => ?_, hText,
      fun _ => hSame⟩
    have hx := List.mem_range.mp hx
    have hSize := hMatch.resolve_right fun hSelf => hj hSelf.1
    rw [if_neg hj]
    omega

/-- One call, where its array is placed. -/
theorem concatenates_iff (hSound : Sound p) (hPlaced : Placed p e) :
    Concatenates p e ↔ SizesMatch p e := by
  obtain ⟨c, address⟩ := e
  cases c with
  | add i j =>
    exact ⟨sizesMatch_of_concatenates hSound hPlaced, concatenates_of_sizesMatch hSound hPlaced⟩
  | _ => exact Iff.rfl

theorem sound_step (hSound : Sound p) (hStep : Guarded ConcatStep Placed p e q) : Sound q := by
  obtain ⟨hPlaced, fuel, r, hExec, rfl⟩ := hStep
  obtain ⟨size, hRoom, hMade⟩ := made_of_placed hPlaced hExec
  exact hSound.update hRoom hMade

/-- From no strings at all, whatever is in memory: in a sequence of calls whose arrays are placed,
every `add` concatenates exactly if every string that is added to has the size of its text, or is
added to itself without one. -/
theorem concatenates_throughout_iff (m : Memory) (es : List (ConcatCall ι × Nat)) :
    Throughout (Guarded ConcatStep Placed) (fun p e => Placed p e → Concatenates p e)
        ⟨fun _ => none, m⟩ es ↔
      Throughout (Guarded ConcatStep Placed) (fun p e => Placed p e → SizesMatch p e)
        ⟨fun _ => none, m⟩ es := by
  refine Throughout.iff (Sound.empty m) (fun p e hSound => ?_) fun p e q hSound _ hStep => ?_
  · exact imp_congr_right fun hPlaced => concatenates_iff hSound hPlaced
  · exact sound_step hSound hStep

end Runs

/-- The text `a` in a string that is set to length 2 and added to itself. -/
theorem not_concatenates_throughout : ¬ ∀ (m : Memory) (es : List (ConcatCall Unit × Nat)),
    Throughout (Guarded ConcatStep Placed) (fun p e => Placed p e → Concatenates p e)
      ⟨fun _ => none, m⟩ es := by
  intro h
  let m := store8 (fun _ => 0) 0x1000 97
  have hRoom : ∀ (p : Pool Unit) (address size : Nat), address ≠ 0 → Room p () address size :=
    fun p address size hNull => ⟨hNull, fun k hk => absurd rfl hk⟩
  obtain ⟨p, hRun, hString, hText⟩ : ∃ p, Run (Guarded ConcatStep Placed) ⟨fun _ => none, m⟩
      [(ConcatCall.ofText () 0x1000, 0xC0000000), (.setLength () 2, 0xC0000010)] p ∧
      p.strings () = some ⟨0xC0000010, 2⟩ ∧ TextAt p.mem 0xC0000010 [97] := by
    refine ⟨_, .cons ⟨fun _ _ => hRoom _ _ _ (by decide), 2, _, rfl, rfl⟩
      (.single ⟨hRoom _ _ _ (by decide), 2, _, rfl, rfl⟩), rfl, ?_⟩
    refine textAt_iff.mpr ⟨fun k hk => ?_, rfl⟩
    obtain rfl : k = 0 := by simpa using hk
    exact ⟨rfl, by simp⟩
  have hPlaced : Placed p (.add () (), 0xC0000020) := by
    intro s t hs ht
    obtain rfl := Option.some.inj (hString.symm.trans hs)
    obtain rfl := Option.some.inj (hString.symm.trans ht)
    exact ⟨by decide, hRoom _ _ _ (by decide), by decide⟩
  have hSound : Sound p := hRun.invariant (Sound.empty m) fun _ _ _ => sound_step
  have hAdd := h m _ _ _ [] p rfl hRun hPlaced
  have hMatch := (concatenates_iff hSound hPlaced).mp hAdd _ _ _ hString hString hText
  exact absurd hMatch (by decide)

end Juos.DataStructures
