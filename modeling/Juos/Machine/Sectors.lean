import Mathlib.Logic.Function.Basic
import Mathlib.Tactic.Common
import Mathlib.Algebra.Group.Nat.Defs

/-!
# Buffers, sectors and blocks

A buffer is a function from offsets to bytes, of which a caller owns a prefix. A `Device` stores
bytes in sectors of a fixed size and keeps the list of the sectors that were accessed, so that a
driver can be held to the order of its accesses.

* `memcpy_append`: two copies in a row are one.
* `readSectors_eq`, `writeSectors_eq`: a loop over consecutive sectors is one copy, and it accesses
  those sectors in order.
* `word_layOut_zero`, `word_layOut_of_le`: the fields of a row read back.
* `block_putBlock_self`, `block_putBlock_of_ne`: a block reads back what was put there, and the
  other blocks are unchanged, for any block size.
* `readSectors_apply`, `writeSectors_apply`, `writeSectors_of_ne`: the same for sectors in no order.
-/

namespace Machine

abbrev Buffer := Nat → UInt8

/-! ## Copies -/

def memset (b : Buffer) (a : Nat) (v : UInt8) (n : Nat) : Buffer :=
  fun i => if a ≤ i ∧ i < a + n then v else b i

def memcpy (dst : Buffer) (a : Nat) (src : Buffer) (n : Nat) : Buffer :=
  fun i => if a ≤ i ∧ i < a + n then src (i - a) else dst i

/-- The buffer `k` bytes further on. -/
def advance (b : Buffer) (k : Nat) : Buffer := fun i => b (k + i)

variable {b dst src : Buffer} {a i k n : Nat}

theorem memset_of_mem {v : UInt8} (hLe : a ≤ i) (hLt : i < a + n) : memset b a v n i = v :=
  if_pos ⟨hLe, hLt⟩

theorem memcpy_of_mem (hLe : a ≤ i) (hLt : i < a + n) : memcpy dst a src n i = src (i - a) :=
  if_pos ⟨hLe, hLt⟩

theorem memcpy_of_not_mem (h : i < a ∨ a + n ≤ i) : memcpy dst a src n i = dst i :=
  if_neg (by omega)

theorem memcpy_zero_apply (hi : i < n) : memcpy dst 0 src n i = src i := by
  rw [memcpy_of_mem (Nat.zero_le i) (by omega), Nat.sub_zero]

theorem memset_of_not_mem {v : UInt8} (h : i < a ∨ a + n ≤ i) : memset b a v n i = b i :=
  if_neg (by omega)

theorem memcpy_congr (dst : Buffer) (a : Nat) {src' : Buffer} (h : ∀ i < n, src' i = src i) :
    memcpy dst a src' n = memcpy dst a src n := by
  funext i
  by_cases hIn : a ≤ i ∧ i < a + n
  · rw [memcpy_of_mem hIn.1 hIn.2, memcpy_of_mem hIn.1 hIn.2, h (i - a) (by omega)]
  · rw [memcpy_of_not_mem (by omega), memcpy_of_not_mem (by omega)]

theorem memcpy_append (dst : Buffer) (a : Nat) (src : Buffer) (n k : Nat) :
    memcpy (memcpy dst a src n) (a + n) (advance src n) k = memcpy dst a src (n + k) := by
  funext i
  by_cases hFirst : i < a + n
  · rw [memcpy_of_not_mem (Or.inl hFirst)]
    by_cases hLe : a ≤ i
    · rw [memcpy_of_mem hLe hFirst, memcpy_of_mem hLe (by omega)]
    · rw [memcpy_of_not_mem (by omega), memcpy_of_not_mem (by omega)]
  · by_cases hLast : i < a + (n + k)
    · rw [memcpy_of_mem (by omega) (by omega), memcpy_of_mem (by omega) hLast, advance,
        show n + (i - (a + n)) = i - a by omega]
    · rw [memcpy_of_not_mem (by omega), memcpy_of_not_mem (by omega), memcpy_of_not_mem (by omega)]

theorem memcpy_none (dst : Buffer) (a : Nat) (src : Buffer) : memcpy dst a src 0 = dst := by
  funext i
  exact memcpy_of_not_mem (by omega)

/-! ## Little-endian words -/

/-- The word of `n` bytes at offset `a`. -/
def word (b : Buffer) (a : Nat) : Nat → Nat
  | 0 => 0
  | n + 1 => (b a).toNat + 256 * word b (a + 1) n

/-- The bytes of `v`, the least significant one first. -/
def le (v : Nat) : Buffer := fun i => UInt8.ofNat (v / 256 ^ i)

/-- Fields in a row, each given by its width in bytes and its value. -/
def layOut : List (Nat × Nat) → Buffer
  | [] => fun _ => 0
  | (n, v) :: fields => fun i => if i < n then le v i else layOut fields (i - n)

theorem word_congr {b' : Buffer} {a' : Nat} (h : ∀ i < n, b' (a' + i) = b (a + i)) :
    word b' a' n = word b a n := by
  induction n generalizing a a' with
  | zero => rfl
  | succ n ih =>
    have hFirst := h 0 (Nat.succ_pos n)
    rw [Nat.add_zero, Nat.add_zero] at hFirst
    have hRest : word b' (a' + 1) n = word b (a + 1) n := by
      apply ih
      intro i hi
      rw [Nat.add_assoc, Nat.add_assoc, Nat.add_comm 1 i]
      exact h (i + 1) (by omega)
    rw [word, word, hFirst, hRest]

theorem word_le (v k n : Nat) : word (le v) k n = v / 256 ^ k % 256 ^ n := by
  induction n generalizing k with
  | zero => rw [word, Nat.pow_zero, Nat.mod_one]
  | succ n ih =>
    have hByte : (le v k).toNat = v / 256 ^ k % 256 := by
      unfold le
      exact UInt8.toNat_ofNat'
    rw [word, hByte, ih, Nat.pow_succ 256 k, ← Nat.div_div_eq_div_mul, Nat.pow_succ 256 n,
      Nat.mul_comm (256 ^ n) 256, Nat.mod_mul]

/-- A word of zeros. -/
theorem word_eq_zero (h : ∀ i < n, b (a + i) = 0) : word b a n = 0 := by
  induction n generalizing a with
  | zero => rfl
  | succ n ih =>
    have hFirst := h 0 (Nat.succ_pos n)
    rw [Nat.add_zero] at hFirst
    have hRest : word b (a + 1) n = 0 := by
      apply ih
      intro i hi
      rw [Nat.add_assoc, Nat.add_comm 1 i]
      exact h (i + 1) (by omega)
    rw [word, hFirst, hRest]
    rfl

/-- The first field of a row. -/
theorem word_layOut_zero (n v : Nat) (fields : List (Nat × Nat)) :
    word (layOut ((n, v) :: fields)) 0 n = v % 256 ^ n := by
  have hFirst : word (layOut ((n, v) :: fields)) 0 n = word (le v) 0 n := by
    apply word_congr
    intro i hi
    rw [Nat.zero_add]
    exact if_pos hi
  rw [hFirst, word_le, Nat.pow_zero, Nat.div_one]

/-- The fields behind the first one. -/
theorem word_layOut_of_le {m v : Nat} {fields : List (Nat × Nat)} (h : m ≤ a) :
    word (layOut ((m, v) :: fields)) a n = word (layOut fields) (a - m) n := by
  apply word_congr
  intro i _
  rw [← Nat.sub_add_comm h]
  exact if_neg (by omega)

/-! ## Sectors -/

inductive Access where
  | read (lba : Nat)
  | write (lba : Nat)
  deriving DecidableEq, Repr

structure Device where
  bytes : Buffer
  accesses : List Access

/-- The sectors that were written, in order. -/
def Device.writes (d : Device) : List Nat :=
  d.accesses.filterMap fun
    | .read _ => none
    | .write lba => some lba

section Sectors

variable (size : Nat)

/-- Read the sectors `lba 0`, ..., `lba (n - 1)` into a buffer, one after the other. -/
def readSectors (lba : Nat → Nat) : Nat → Buffer → Device → Buffer × Device
  | 0, b, d => (b, d)
  | n + 1, b, d =>
    let r := readSectors lba n b d
    (memcpy r.1 (n * size) (advance r.2.bytes (lba n * size)) size,
      { r.2 with accesses := r.2.accesses ++ [.read (lba n)] })

def writeSectors (lba : Nat → Nat) : Nat → Buffer → Device → Device
  | 0, _, d => d
  | n + 1, b, d =>
    let d := writeSectors lba n b d
    { bytes := memcpy d.bytes (lba n * size) (advance b (n * size)) size
      accesses := d.accesses ++ [.write (lba n)] }

variable {size} {lba : Nat → Nat} {start : Nat}

/-- Wherever the sectors lie, reading changes no byte and writes no sector. -/
theorem readSectors_device (b : Buffer) (d : Device) :
    (readSectors size lba n b d).2.bytes = d.bytes ∧
      (readSectors size lba n b d).2.writes = d.writes := by
  induction n with
  | zero => exact ⟨rfl, rfl⟩
  | succ n ih =>
    refine ⟨ih.1, ?_⟩
    rw [readSectors, Device.writes, List.filterMap_append]
    exact (List.append_nil _).trans ih.2

/-- Wherever the sectors lie, all of them are written, in order. -/
theorem writeSectors_writes (b : Buffer) (d : Device) :
    (writeSectors size lba n b d).writes = d.writes ++ (List.range n).map lba := by
  induction n with
  | zero => exact (List.append_nil _).symm
  | succ n ih =>
    rw [writeSectors, Device.writes, List.filterMap_append, List.range_succ, List.map_append,
      ← List.append_assoc, ← ih]
    rfl

/-- Reading does not depend on what was in the buffer. -/
theorem readSectors_congr (b b' : Buffer) (d : Device) :
    (∀ i < n * size, (readSectors size lba n b' d).1 i = (readSectors size lba n b d).1 i) ∧
      (readSectors size lba n b' d).2 = (readSectors size lba n b d).2 := by
  induction n with
  | zero => exact ⟨fun i hi => absurd hi (by omega), rfl⟩
  | succ n ih =>
    obtain ⟨hBytes, hDevice⟩ := ih
    rw [readSectors, readSectors, hDevice]
    refine ⟨fun i hi => ?_, rfl⟩
    rw [Nat.succ_mul] at hi
    dsimp only
    by_cases hBefore : i < n * size
    · rw [memcpy_of_not_mem (Or.inl hBefore), memcpy_of_not_mem (Or.inl hBefore)]
      exact hBytes i hBefore
    · rw [memcpy_of_mem (by omega) hi, memcpy_of_mem (by omega) hi]

/-- Writing depends on the bytes that are written only. -/
theorem writeSectors_congr {b b' : Buffer} (d : Device) (h : ∀ i < n * size, b' i = b i) :
    writeSectors size lba n b' d = writeSectors size lba n b d := by
  induction n with
  | zero => rfl
  | succ n ih =>
    rw [Nat.succ_mul] at h
    have hLast : ∀ i < size, advance b' (n * size) i = advance b (n * size) i :=
      fun i hi => h (n * size + i) (by omega)
    rw [writeSectors, writeSectors, ih fun i hi => h i (by omega), memcpy_congr _ _ hLast]

theorem readSectors_eq (b : Buffer) (d : Device) (hLba : ∀ i < n, lba i = start + i) :
    readSectors size lba n b d =
      (memcpy b 0 (advance d.bytes (start * size)) (n * size),
        { bytes := d.bytes
          accesses := d.accesses ++ (List.range n).map fun i => .read (start + i) }) := by
  induction n with
  | zero => simp [readSectors, memcpy_none]
  | succ n ih =>
    have hNext : advance d.bytes ((start + n) * size) =
        advance (advance d.bytes (start * size)) (n * size) := by
      funext i
      rw [advance, advance, advance, Nat.add_mul, Nat.add_assoc]
    have hCopy := memcpy_append b 0 (advance d.bytes (start * size)) (n * size) size
    rw [Nat.zero_add] at hCopy
    rw [readSectors, ih fun i hi => hLba i (by omega), hLba n (Nat.lt_succ_self n)]
    simp only [hNext, hCopy, Nat.succ_mul, List.range_succ, List.map_append, List.map_cons,
      List.map_nil, List.append_assoc]

theorem writeSectors_eq (b : Buffer) (d : Device) (hLba : ∀ i < n, lba i = start + i) :
    writeSectors size lba n b d =
      { bytes := memcpy d.bytes (start * size) b (n * size)
        accesses := d.accesses ++ (List.range n).map fun i => .write (start + i) } := by
  induction n with
  | zero => simp [writeSectors, memcpy_none]
  | succ n ih =>
    have hCopy := memcpy_append d.bytes (start * size) b (n * size) size
    rw [writeSectors, ih fun i hi => hLba i (by omega), hLba n (Nat.lt_succ_self n)]
    simp only [Nat.add_mul start n size, hCopy, Nat.succ_mul, List.range_succ, List.map_append,
      List.map_cons, List.map_nil, List.append_assoc]

end Sectors

/-! ## Blocks -/

section Blocks

variable {size c c' : Nat} {content : Buffer}

/-- The contents of block `c`. -/
def block (size : Nat) (b : Buffer) (c : Nat) : Buffer := advance b (c * size)

def putBlock (size : Nat) (b : Buffer) (c : Nat) (content : Buffer) : Buffer :=
  memcpy b (c * size) content size

theorem block_putBlock_self (hi : i < size) : block size (putBlock size b c content) c i =
    content i := by
  unfold block putBlock advance
  rw [memcpy_of_mem (Nat.le_add_right _ _) (by omega), Nat.add_sub_cancel_left]

/-- An offset inside a block lies in none of the `n` blocks from `c` when the block is none of
them. -/
theorem offset_outside (h : c' < c ∨ c + n ≤ c') (hi : i < size) :
    c' * size + i < c * size ∨ c * size + n * size ≤ c' * size + i := by
  rcases h with hLt | hGe
  · have := Nat.mul_le_mul_right size (Nat.succ_le_of_lt hLt)
    rw [Nat.succ_mul] at this
    omega
  · have := Nat.mul_le_mul_right size hGe
    rw [Nat.add_mul] at this
    omega

theorem offset_of_ne (hne : c' ≠ c) (hi : i < size) :
    c' * size + i < c * size ∨ c * size + size ≤ c' * size + i := by
  have hOut := offset_outside (n := 1) (by omega : c' < c ∨ c + 1 ≤ c') hi
  rwa [Nat.one_mul] at hOut

theorem block_putBlock_of_ne (hne : c' ≠ c) (hi : i < size) :
    block size (putBlock size b c content) c' i = block size b c' i := by
  unfold block putBlock advance
  exact memcpy_of_not_mem (offset_of_ne hne hi)

/-- Outside of the block nothing changes. -/
theorem putBlock_of_not_mem (h : i < c * size ∨ c * size + size ≤ i) :
    putBlock size b c content i = b i := memcpy_of_not_mem h

/-- A block that is read, changed at one place and written back. -/
theorem putBlock_patch {dst src : Buffer} {v : UInt8} {m off : Nat} (h : off + m ≤ size) :
    putBlock size b c
        (memcpy (memset (memcpy dst 0 (block size b c) size) off v m) off src m) =
      memcpy b (c * size + off) src m := by
  funext i
  unfold putBlock
  by_cases hBlock : c * size ≤ i ∧ i < c * size + size
  · rw [memcpy_of_mem hBlock.1 hBlock.2]
    by_cases hPatch : c * size + off ≤ i ∧ i < c * size + off + m
    · rw [memcpy_of_mem (by omega) (by omega), memcpy_of_mem hPatch.1 hPatch.2, Nat.sub_sub]
    · rw [memcpy_of_not_mem (by omega), memcpy_of_not_mem (by omega),
        memset_of_not_mem (by omega), memcpy_zero_apply (by omega), block, advance,
        Nat.add_sub_cancel' hBlock.1]
  · rw [memcpy_of_not_mem (by omega), memcpy_of_not_mem (by omega)]

end Blocks

/-! ## Sectors that lie anywhere -/

section Scattered

variable {size j : Nat} {lba : Nat → Nat}

theorem readSectors_apply (b : Buffer) (d : Device) (hi : i < n) (hj : j < size) :
    (readSectors size lba n b d).1 (i * size + j) = d.bytes (lba i * size + j) := by
  induction n with
  | zero => exact absurd hi (Nat.not_lt_zero i)
  | succ n ih =>
    rw [readSectors]
    dsimp only
    rcases Nat.lt_succ_iff_lt_or_eq.mp hi with hBefore | rfl
    · rw [memcpy_of_not_mem (offset_of_ne (Nat.ne_of_lt hBefore) hj)]
      exact ih hBefore
    · rw [memcpy_of_mem (Nat.le_add_right _ _) (by omega), Nat.add_sub_cancel_left, advance,
        (readSectors_device b d).1]

/-- What is written to different sectors stays. -/
theorem writeSectors_apply (b : Buffer) (d : Device)
    (hLba : ∀ i < n, ∀ k < n, lba i = lba k → i = k) (hi : i < n) (hj : j < size) :
    (writeSectors size lba n b d).bytes (lba i * size + j) = b (i * size + j) := by
  induction n with
  | zero => exact absurd hi (Nat.not_lt_zero i)
  | succ n ih =>
    rw [writeSectors]
    dsimp only
    rcases Nat.lt_succ_iff_lt_or_eq.mp hi with hBefore | rfl
    · have hne : lba i ≠ lba n := fun hSame =>
        Nat.ne_of_lt hBefore (hLba i hi n (Nat.lt_succ_self n) hSame)
      rw [memcpy_of_not_mem (offset_of_ne hne hj)]
      exact ih (fun i hi k hk => hLba i (Nat.lt_succ_of_lt hi) k (Nat.lt_succ_of_lt hk)) hBefore
    · rw [memcpy_of_mem (Nat.le_add_right _ _) (by omega), Nat.add_sub_cancel_left, advance]

/-- The other sectors are left alone. -/
theorem writeSectors_of_ne (b : Buffer) (d : Device) (h : ∀ i < n, k ≠ lba i) (hj : j < size) :
    (writeSectors size lba n b d).bytes (k * size + j) = d.bytes (k * size + j) := by
  induction n with
  | zero => rfl
  | succ n ih =>
    rw [writeSectors]
    dsimp only
    rw [memcpy_of_not_mem (offset_of_ne (h n (Nat.lt_succ_self n)) hj)]
    exact ih fun i hi => h i (Nat.lt_succ_of_lt hi)

end Scattered

end Machine
