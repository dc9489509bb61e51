import Mathlib.Logic.Function.Basic
import Juos.Machine.Memory
import Juos.Machine.Run

/-!
# The string

The class `String` over the memory its texts live in. Every operation allocates an array of as many
bytes as the text has characters; `strncpy` and `setLength` then put the terminating NUL behind
the last of them. `CharHeap` records where an operation allocated its array and what it wrote, and
`overrun_of_step` says that no operation leaves a terminated text inside the array: the byte
behind it is always written, unless there is no array at all.
-/

namespace Juos.DataStructures

open Machine

/-! ## C strings -/

/-- The loop of `strlen`, after `len` characters. -/
def strlen (m : Memory) (p : Nat) : Nat → Nat → Option Nat
  | 0, _ => none
  | fuel + 1, len => if load8 m (p + len) = 0 then some len else strlen m p fuel (len + 1)

/-- A NUL ends the text at `p`. -/
def Terminated (m : Memory) (p : Nat) : Prop := ∃ n, load8 m (p + n) = 0

/-- The memory, the array that was allocated last, and the addresses written since. -/
structure CharHeap where
  mem : Memory
  array : Nat
  length : Nat
  written : List Nat

/-- `new char[n]`, which returns `address`; null comes without any bytes. -/
def newChars (m : Memory) (address n : Nat) : CharHeap :=
  ⟨m, address, if address = 0 then 0 else n, []⟩

namespace CharHeap

def put (h : CharHeap) (a v : Nat) : CharHeap :=
  { h with mem := store8 h.mem a v, written := a % 4294967296 :: h.written }

/-- The loop that stores `f h i` at `a + i`, for `i` from `first` on. -/
def putAll (h : CharHeap) (a : Nat) (f : CharHeap → Nat → Nat) (first n : Nat) : CharHeap :=
  (List.range' first n).foldl (fun h i => h.put (a + i) (f h i)) h

/-- Only bytes of the array were written. -/
def Inside (h : CharHeap) : Prop :=
  ∀ a ∈ h.written, ∃ i < h.length, a = (h.array + i) % 4294967296

def HasNul (h : CharHeap) : Prop := ∃ i < h.length, load8 h.mem (h.array + i) = 0

end CharHeap

/-- The loop of `strncpy`, with `num` characters to go. -/
def strncpy (h : CharHeap) (destination source : Nat) : Nat → CharHeap
  | 0 => h.put destination 0
  | num + 1 =>
    if load8 h.mem source = 0 then h.put destination 0
    else strncpy (h.put destination (load8 h.mem source)) (destination + 1) (source + 1) num

/-! ## Operations -/

structure String where
  data : Nat
  size : Nat

namespace String

def getLength (fuel : Nat) (m : Memory) (s : String) : Option Nat := strlen m s.data fuel 0

/-- A new array for the text at `text`, and the text copied to it unless the array is null. -/
def ofText (fuel : Nat) (m : Memory) (text address : Nat) : Option (String × CharHeap) :=
  (strlen m text fuel 0).map fun size =>
    let h := newChars m address size
    (⟨address, size⟩, if address ≠ 0 then strncpy h address text size else h)

/-- The constructor with `char*`. -/
def construct (fuel : Nat) (m : Memory) (data address : Nat) : Option (String × CharHeap) :=
  ofText fuel m data address

/-- The copy constructor. -/
def copyConstruct (fuel : Nat) (m : Memory) (string : String) (address : Nat) :
    Option (String × CharHeap) :=
  ofText fuel m string.data address

/-- `operator=`, which forgets the array it had. -/
def assign (fuel : Nat) (m : Memory) (string : String) (address : Nat) :
    Option (String × CharHeap) :=
  ofText fuel m string.data address

/-- `setText` copies the text even when the new array is null. -/
def setText (fuel : Nat) (m : Memory) (text address : Nat) : Option (String × CharHeap) :=
  (strlen m text fuel 0).map fun size =>
    (⟨address, size⟩, strncpy (newChars m address size) address text size)

def setLength (fuel : Nat) (m : Memory) (s : String) (size address : Nat) :
    Option (String × CharHeap) :=
  (s.getLength fuel m).map fun oldLength =>
    let h := (newChars m address size).putAll address
      (fun h i => if i < oldLength then load8 h.mem (s.data + i) else 0) 0 size
    (⟨address, size⟩, h.put (address + size) 0)

/-- `add`; `text` gives the text that is added once the string has its new array, which is another
one when a string is added to itself. -/
def add (fuel : Nat) (m : Memory) (s : String) (textSize : Nat) (text : String → String)
    (address : Nat) : Option (String × CharHeap) :=
  let newSize := (s.size + textSize) % 4294967296
  (s.setLength fuel m newSize address).bind fun r =>
    (r.1.getLength fuel r.2.mem).map fun length =>
      (r.1, r.2.putAll r.1.data (fun h i => load8 h.mem ((text r.1).data + (i - length)))
        length (newSize - length))

end String

/-! ## Reading a text -/

section Texts

variable {m : Memory} {p fuel fuel' len n : Nat}

theorem strlen_spec (h : strlen m p fuel len = some n) (hBefore : ∀ k < len, load8 m (p + k) ≠ 0) :
    load8 m (p + n) = 0 ∧ ∀ k < n, load8 m (p + k) ≠ 0 := by
  induction fuel generalizing len with
  | zero => cases h
  | succ fuel ih =>
    rw [strlen] at h
    split_ifs at h with hNul
    · cases h
      exact ⟨hNul, hBefore⟩
    · apply ih h
      intro k hk
      rcases Nat.lt_succ_iff_lt_or_eq.mp hk with hLt | rfl
      · exact hBefore k hLt
      · exact hNul

/-- A text is shorter than the address space. -/
theorem strlen_lt (h : strlen m p fuel 0 = some n) : n < 4294967296 := by
  obtain ⟨hNul, hText⟩ := strlen_spec h nofun
  by_contra hLong
  apply hText (n - 4294967296) (by omega)
  have hSame : (p + (n - 4294967296)) % 4294967296 = (p + n) % 4294967296 := by omega
  rw [load8, hSame]
  exact hNul

theorem strlen_mono (h : strlen m p fuel len = some n) (hFuel : fuel ≤ fuel') :
    strlen m p fuel' len = some n := by
  induction fuel generalizing len fuel' with
  | zero => cases h
  | succ fuel ih =>
    obtain ⟨fuel', rfl⟩ := Nat.exists_eq_add_of_lt hFuel
    rw [strlen] at h ⊢
    split_ifs at h ⊢ with hNul
    · exact h
    · exact ih h (by omega)

theorem strlen_isSome (h : Terminated m p) : ∃ fuel n, strlen m p fuel 0 = some n := by
  obtain ⟨k, hk⟩ := h
  suffices hFrom : ∀ len, load8 m (p + (len + k)) = 0 → ∃ n, strlen m p (k + 1) len = some n by
    obtain ⟨n, hn⟩ := hFrom 0 (by rwa [Nat.zero_add])
    exact ⟨k + 1, n, hn⟩
  clear hk
  induction k with
  | zero =>
    intro len hNul
    exact ⟨len, if_pos hNul⟩
  | succ k ih =>
    intro len hNul
    rw [strlen]
    split_ifs with hHere
    · exact ⟨len, rfl⟩
    · apply ih
      have hNext : len + 1 + k = len + (k + 1) := by omega
      rwa [hNext]

end Texts

/-! ## Writing behind the array -/

namespace CharHeap

variable {h : CharHeap} {a v n first destination source num : Nat} {f : CharHeap → Nat → Nat}

/-- There is no array, or the byte behind it was written. -/
def Overrun (h : CharHeap) : Prop :=
  h.length = 0 ∨ (h.length < 4294967296 ∧ (h.array + h.length) % 4294967296 ∈ h.written)

theorem Overrun.not_inside (hOver : h.Overrun) (hInside : h.Inside) (hNul : h.HasNul) : False := by
  obtain ⟨j, hj, -⟩ := hNul
  rcases hOver with hNone | ⟨hLength, hWritten⟩
  · omega
  · obtain ⟨i, hi, hEq⟩ := hInside _ hWritten
    omega

theorem Overrun.put (hOver : h.Overrun) (a v : Nat) : (h.put a v).Overrun :=
  hOver.imp_right fun hWritten => ⟨hWritten.1, List.mem_cons_of_mem _ hWritten.2⟩

/-- What every store keeps, the loops keep. -/
theorem putAll_keeps {I : CharHeap → Prop} (hPut : ∀ h a v, I h → I (h.put a v)) (hI : I h) :
    I (h.putAll a f first n) := by
  unfold putAll
  generalize List.range' first n = is
  induction is generalizing h with
  | nil => exact hI
  | cons i is ih => exact ih (hPut _ _ _ hI)

theorem strncpy_keeps {I : CharHeap → Prop} (hPut : ∀ h a v, I h → I (h.put a v)) (hI : I h) :
    I (strncpy h destination source num) := by
  induction num generalizing h destination source with
  | zero => exact hPut _ _ _ hI
  | succ num ih =>
    rw [strncpy]
    split_ifs with hNul
    · exact hPut _ _ _ hI
    · exact ih (hPut _ _ _ hI)

/-- The heap after `new char[n]` at `address` and any number of stores. -/
def Of (address n : Nat) (h : CharHeap) : Prop :=
  h.array = address ∧ h.length = if address = 0 then 0 else n

theorem Of.put (hOf : h.Of a n) {b : Nat} : (h.put b v).Of a n := hOf

theorem Of.overrun (hOf : h.Of a n) (hn : n < 4294967296)
    (hWritten : a ≠ 0 → (a + n) % 4294967296 ∈ h.written) : h.Overrun := by
  obtain ⟨rfl, hLength⟩ := hOf
  by_cases hNull : h.array = 0
  · left
    rw [hLength, if_pos hNull]
  · right
    rw [hLength, if_neg hNull]
    exact ⟨hn, hWritten hNull⟩

end CharHeap

theorem load8_store8_ne_zero {m : Memory} {a b v : Nat} (hv : v % 256 ≠ 0) (ha : load8 m a ≠ 0) :
    load8 (store8 m b v) a ≠ 0 := by
  by_cases hSame : a % 4294967296 = b % 4294967296
  · rw [load8, hSame]
    exact (load8_store8 m b v).trans_ne hv
  · rw [load8_store8_of_ne m v hSame]
    exact ha

/-- `strncpy` with the length of the text writes a byte more: what it copies has no NUL in it, even
if it copies over the text. -/
theorem strncpy_written {h : CharHeap} {destination source num : Nat}
    (hText : ∀ k < num, load8 h.mem (source + k) ≠ 0) :
    (destination + num) % 4294967296 ∈ (strncpy h destination source num).written := by
  induction num generalizing h destination source with
  | zero => exact List.mem_cons_self
  | succ num ih =>
    have hHere : load8 h.mem source ≠ 0 := hText 0 (Nat.succ_pos _)
    have hEnd : destination + (num + 1) = destination + 1 + num := by omega
    rw [strncpy, if_neg hHere, hEnd]
    apply ih
    intro k hk
    apply load8_store8_ne_zero
    · rwa [Nat.mod_eq_of_lt (load8_lt _ _)]
    · have hNext := hText (k + 1) (Nat.succ_lt_succ hk)
      rwa [Nat.add_right_comm]

/-! ## Every operation -/

namespace String

variable {m : Memory} {s : String} {h : CharHeap} {r : String × CharHeap} {text : String → String}
  {fuel p size textSize address : Nat}

theorem strncpy_overrun (hText : strlen m p fuel 0 = some size) :
    (strncpy (newChars m address size) address p size).Overrun := by
  have hOf : (strncpy (newChars m address size) address p size).Of address size :=
    CharHeap.strncpy_keeps (fun _ _ _ hOf => hOf.put) ⟨rfl, rfl⟩
  apply hOf.overrun (strlen_lt hText)
  intro _
  exact strncpy_written (strlen_spec hText nofun).2

theorem ofText_overrun (hRun : ofText fuel m p address = some r) : r.2.Overrun := by
  obtain ⟨size, hSize, rfl⟩ := Option.map_eq_some_iff.mp hRun
  dsimp only
  split_ifs with hNull
  · exact strncpy_overrun hSize
  · left
    exact if_pos (not_not.mp hNull)

theorem setText_overrun (hRun : setText fuel m p address = some r) : r.2.Overrun := by
  obtain ⟨size, hSize, rfl⟩ := Option.map_eq_some_iff.mp hRun
  exact strncpy_overrun hSize

/-- The last store of `setLength` ends the text behind the array. -/
theorem setLength_spec (hRun : s.setLength fuel m size address = some r)
    (hSize : size < 4294967296) : r.2.Overrun ∧ Terminated r.2.mem r.1.data := by
  obtain ⟨oldLength, -, rfl⟩ := Option.map_eq_some_iff.mp hRun
  constructor
  · have hOf (f : CharHeap → Nat → Nat) :
        ((newChars m address size).putAll address f 0 size).Of address size :=
      CharHeap.putAll_keeps (fun _ _ _ hOf => hOf.put) ⟨rfl, rfl⟩
    exact (hOf _).put.overrun hSize fun _ => List.mem_cons_self
  · exact ⟨size, load8_store8 _ _ _⟩

theorem add_overrun (hRun : s.add fuel m textSize text address = some r) : r.2.Overrun := by
  obtain ⟨r', hSet, hRest⟩ := Option.bind_eq_some_iff.mp hRun
  obtain ⟨length, -, rfl⟩ := Option.map_eq_some_iff.mp hRest
  have hOver := (setLength_spec hSet (Nat.mod_lt _ (by decide))).1
  exact CharHeap.putAll_keeps (fun _ _ _ hOver => hOver.put _ _) hOver

theorem setLength_isSome (h : Terminated m s.data) (size address : Nat) :
    ∃ fuel r, s.setLength fuel m size address = some r := by
  obtain ⟨fuel, n, hn⟩ := strlen_isSome h
  refine ⟨fuel, ?_⟩
  rw [setLength, getLength, hn]
  exact ⟨_, rfl⟩

theorem ofText_isSome (h : Terminated m p) (address : Nat) :
    ∃ fuel r, ofText fuel m p address = some r := by
  obtain ⟨fuel, n, hn⟩ := strlen_isSome h
  refine ⟨fuel, ?_⟩
  rw [ofText, hn]
  exact ⟨_, rfl⟩

theorem setText_isSome (h : Terminated m p) (address : Nat) :
    ∃ fuel r, setText fuel m p address = some r := by
  obtain ⟨fuel, n, hn⟩ := strlen_isSome h
  refine ⟨fuel, ?_⟩
  rw [setText, hn]
  exact ⟨_, rfl⟩

/-- The second `strlen` finds the NUL that `setLength` has put there. -/
theorem add_isSome (h : Terminated m s.data) (textSize : Nat) (text : String → String)
    (address : Nat) : ∃ fuel r, s.add fuel m textSize text address = some r := by
  obtain ⟨fuel, n, hn⟩ := strlen_isSome h
  obtain ⟨r, hr⟩ : ∃ r, s.setLength fuel m ((s.size + textSize) % 4294967296) address = some r := by
    rw [setLength, getLength, hn]
    exact ⟨_, rfl⟩
  obtain ⟨fuel', k, hk⟩ := strlen_isSome (setLength_spec hr (Nat.mod_lt _ (by decide))).2
  have hOld := strlen_mono hn (Nat.le_max_left fuel fuel')
  have hNew := strlen_mono hk (Nat.le_max_right fuel fuel')
  have hr' : s.setLength (max fuel fuel') m ((s.size + textSize) % 4294967296) address =
      some r := by
    rw [setLength, getLength, hn] at hr
    rw [setLength, getLength, hOld]
    exact hr
  refine ⟨max fuel fuel', ?_⟩
  simp only [add, hr', Option.bind_some, getLength, hNew, Option.map_some]
  exact ⟨_, rfl⟩

end String

/-! ## Sequences of operations -/

/-- The strings, and the heap after the last operation. -/
structure StringSystem (ι : Type) where
  strings : ι → String
  heap : CharHeap

inductive StringCall (ι : Type) where
  | construct (i : ι) (data : Nat)
  | copyConstruct (i j : ι)
  | assign (i j : ι)
  | setText (i : ι) (text : Nat)
  | setLength (i : ι) (size : UInt32)
  | add (i j : ι)

section Runs

variable {ι : Type} [DecidableEq ι] {fuel : Nat} {s t : StringSystem ι}

/-- What the operation returns when operator `new` returns `address`. -/
def StringCall.exec (fuel : Nat) (s : StringSystem ι) (address : Nat) :
    StringCall ι → Option (ι × String × CharHeap)
  | construct i data => (String.construct fuel s.heap.mem data address).map (i, ·)
  | copyConstruct i j => (String.copyConstruct fuel s.heap.mem (s.strings j) address).map (i, ·)
  | assign i j => (String.assign fuel s.heap.mem (s.strings j) address).map (i, ·)
  | setText i text => (String.setText fuel s.heap.mem text address).map (i, ·)
  | setLength i size =>
    ((s.strings i).setLength fuel s.heap.mem size.toNat address).map (i, ·)
  | add i j => ((s.strings i).add fuel s.heap.mem (s.strings j).size
      (fun string => if j = i then string else s.strings j) address).map (i, ·)

/-- The text that the operation takes the length of first. -/
def StringCall.text (s : StringSystem ι) : StringCall ι → Nat
  | construct _ data => data
  | copyConstruct _ j => (s.strings j).data
  | assign _ j => (s.strings j).data
  | setText _ text => text
  | setLength i _ => (s.strings i).data
  | add i _ => (s.strings i).data

def StringSystem.call (fuel : Nat) (s : StringSystem ι) (e : StringCall ι × Nat) :
    Option (StringSystem ι) :=
  (e.1.exec fuel s e.2).map fun r => ⟨Function.update s.strings r.1 r.2.1, r.2.2⟩

def StringStep (s : StringSystem ι) (e : StringCall ι × Nat) (t : StringSystem ι) : Prop :=
  ∃ fuel, s.call fuel e = some t

/-- The operation writes inside the array it allocates, and leaves a NUL there. -/
def StringKept (s : StringSystem ι) (e : StringCall ι × Nat) : Prop :=
  ∃ t, StringStep s e t ∧ t.heap.Inside ∧ t.heap.HasNul

theorem overrun_of_step {e : StringCall ι × Nat} (h : StringStep s e t) : t.heap.Overrun := by
  obtain ⟨c, address⟩ := e
  obtain ⟨fuel, hCall⟩ := h
  obtain ⟨r, hExec, rfl⟩ := Option.map_eq_some_iff.mp hCall
  cases c <;> obtain ⟨r', hRun, rfl⟩ := Option.map_eq_some_iff.mp hExec
  case construct => exact String.ofText_overrun hRun
  case copyConstruct => exact String.ofText_overrun hRun
  case assign => exact String.ofText_overrun hRun
  case setText => exact String.setText_overrun hRun
  case setLength i size => exact (String.setLength_spec hRun size.toNat_lt).1
  case add => exact String.add_overrun hRun

theorem exists_map {β γ : Type} {f : Nat → Option β} (h : ∃ fuel r, f fuel = some r) (g : β → γ) :
    ∃ fuel r, (f fuel).map g = some r := by
  obtain ⟨fuel, r, hr⟩ := h
  exact ⟨fuel, g r, by rw [hr]; rfl⟩

/-- The operation returns when the text it measures is terminated. -/
theorem exists_step {e : StringCall ι × Nat} (h : Terminated s.heap.mem (e.1.text s)) :
    ∃ t, StringStep s e t := by
  obtain ⟨c, address⟩ := e
  have hExec : ∃ fuel r, c.exec fuel s address = some r := by
    cases c with
    | construct i data => exact exists_map (String.ofText_isSome h address) _
    | copyConstruct i j => exact exists_map (String.ofText_isSome h address) _
    | assign i j => exact exists_map (String.ofText_isSome h address) _
    | setText i text => exact exists_map (String.setText_isSome h address) _
    | setLength i size => exact exists_map (String.setLength_isSome h size.toNat address) _
    | add i j => exact exists_map (String.add_isSome h _ _ address) _
  obtain ⟨fuel, r, hr⟩ := hExec
  have hCall : ∃ t, s.call fuel (c, address) = some t := by
    rw [StringSystem.call, hr]
    exact ⟨_, rfl⟩
  obtain ⟨t, ht⟩ := hCall
  exact ⟨t, fuel, ht⟩

theorem not_stringKept (s : StringSystem ι) (e : StringCall ι × Nat) : ¬ StringKept s e := by
  rintro ⟨t, hStep, hInside, hNul⟩
  exact (overrun_of_step hStep).not_inside hInside hNul

/-- Whatever the strings hold and wherever operator `new` puts the arrays, no sequence of operations
keeps a terminated text inside them: an operation on a terminated text returns, and then it was
given no array, or has written the byte behind it. -/
theorem stringKept_throughout_iff (s : StringSystem ι) (es : List (StringCall ι × Nat)) :
    (Throughout StringStep StringKept s es ↔ es = []) ∧
      ∀ (t : StringSystem ι) (e : StringCall ι × Nat), Terminated t.heap.mem (e.1.text t) →
        ∃ t', StringStep t e t' ∧ t'.heap.Overrun := by
  constructor
  · constructor
    · intro h
      cases es with
      | nil => rfl
      | cons e es => exact absurd (h [] e es s rfl .refl) (not_stringKept s e)
    · rintro rfl pre e post t hEq
      simp at hEq
  · intro t e hText
    obtain ⟨t', hStep⟩ := exists_step hText
    exact ⟨t', hStep, overrun_of_step hStep⟩

end Runs

/-- The constructor with `"abc"`, which writes four bytes to an array of three. -/
theorem not_stringKept_abc : ∃ s t : StringSystem Unit,
    load8 s.heap.mem 0x1000 = 97 ∧ load8 s.heap.mem 0x1001 = 98 ∧ load8 s.heap.mem 0x1002 = 99 ∧
    load8 s.heap.mem 0x1003 = 0 ∧ StringStep s (.construct () 0x1000, 0xC0000000) t ∧
    t.heap.array = 0xC0000000 ∧ t.heap.length = 3 ∧
    t.heap.written = [0xC0000003, 0xC0000002, 0xC0000001, 0xC0000000] ∧
    ¬ Throughout StringStep StringKept s [(.construct () 0x1000, 0xC0000000)] := by
  let m := store8 (store8 (store8 (fun _ => 0) 0x1000 97) 0x1001 98) 0x1002 99
  let s : StringSystem Unit := ⟨fun _ => ⟨0, 0⟩, ⟨m, 0, 0, []⟩⟩
  have hCall : (s.call 4 (.construct () 0x1000, 0xC0000000)).map
      (fun t => (t.heap.array, t.heap.length, t.heap.written)) =
        some (0xC0000000, 3, [0xC0000003, 0xC0000002, 0xC0000001, 0xC0000000]) := by
    decide
  obtain ⟨t, ht, hEq⟩ := Option.map_eq_some_iff.mp hCall
  simp only [Prod.mk.injEq] at hEq
  obtain ⟨hArray, hLength, hWritten⟩ := hEq
  refine ⟨s, t, by decide, by decide, by decide, by decide, ⟨4, ht⟩, hArray, hLength, hWritten, ?_⟩
  intro h
  exact not_stringKept s _ (Throughout.singleton_iff.mp h)

end Juos.DataStructures
