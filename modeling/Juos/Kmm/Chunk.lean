import Juos.Machine.Memory

/-!
# Chunk headers

`BigChunk` is a packed struct of 13 bytes: `prev`, `next` and `size` are words at offsets 0, 4
and 8, `used` is the byte at offset 12. A header is read and written through these fields in
byte memory, so two headers that overlap, or a header under user data, do influence each other.

`chunkAt` reads a whole header. For each assignment to a field there are two facts: what the
header itself reads afterwards, and that every range apart from it is unchanged.
-/

namespace Juos.Kmm

open Machine

/-- `sizeof(big_chunk_t)` -/
abbrev sizeofBigChunk : Nat := 13

structure BigChunk where
  prev : Nat
  next : Nat
  size : Nat
  used : Bool
  deriving DecidableEq, Repr

def prev (m : Memory) (c : Nat) : Nat := load32 m c

def next (m : Memory) (c : Nat) : Nat := load32 m (c + 4)

def size (m : Memory) (c : Nat) : Nat := load32 m (c + 8)

def used (m : Memory) (c : Nat) : Bool := load8 m (c + 12) ≠ 0

def chunkAt (m : Memory) (c : Nat) : BigChunk := ⟨prev m c, next m c, size m c, used m c⟩

theorem prev_of_chunkAt {m : Memory} {c : Nat} {k : BigChunk} (h : chunkAt m c = k) :
    prev m c = k.prev := congrArg BigChunk.prev h

theorem next_of_chunkAt {m : Memory} {c : Nat} {k : BigChunk} (h : chunkAt m c = k) :
    next m c = k.next := congrArg BigChunk.next h

theorem size_of_chunkAt {m : Memory} {c : Nat} {k : BigChunk} (h : chunkAt m c = k) :
    size m c = k.size := congrArg BigChunk.size h

theorem used_of_chunkAt {m : Memory} {c : Nat} {k : BigChunk} (h : chunkAt m c = k) :
    used m c = k.used := congrArg BigChunk.used h

def setPrev (m : Memory) (c v : Nat) : Memory := store32 m c v

def setNext (m : Memory) (c v : Nat) : Memory := store32 m (c + 4) v

def setSize (m : Memory) (c v : Nat) : Memory := store32 m (c + 8) v

def setUsed (m : Memory) (c : Nat) (b : Bool) : Memory := store8 m (c + 12) b.toNat

/-- `memset(chunk, 0, sizeof(big_chunk_t))` -/
def clearChunk (m : Memory) (c : Nat) : Memory := fill m c 0 sizeofBigChunk

/-! ## The header after an assignment to one of its fields -/

private theorem fields_apart {c i n j k : Nat} (hLt : i + n ≤ j) (hj : j + k ≤ 13) :
    Apart (c + i) n (c + j) k := by
  intro x hx y hy
  omega

theorem chunkAt_setPrev (m : Memory) (c v : Nat) :
    chunkAt (setPrev m c v) c = { chunkAt m c with prev := v % 4294967296 } := by
  have h {j k : Nat} (hj : 4 ≤ j) (hk : j + k ≤ 13) : Apart c 4 (c + j) k :=
    fields_apart (i := 0) (by omega) hk
  simp only [chunkAt, setPrev, prev, next, size, used, load32_store32,
    load32_store32_of_apart _ _ (h (j := 4) (k := 4) (by omega) (by omega)),
    load32_store32_of_apart _ _ (h (j := 8) (k := 4) (by omega) (by omega)),
    load8_store32_of_apart _ _ (h (j := 12) (k := 1) (by omega) (by omega))]

theorem chunkAt_setNext (m : Memory) (c v : Nat) :
    chunkAt (setNext m c v) c = { chunkAt m c with next := v % 4294967296 } := by
  have hPrev : Apart (c + 4) 4 c 4 := (fields_apart (i := 0) (j := 4) (by omega) (by omega)).symm
  have h {j k : Nat} (hj : 8 ≤ j) (hk : j + k ≤ 13) : Apart (c + 4) 4 (c + j) k :=
    fields_apart (by omega) hk
  simp only [chunkAt, setNext, prev, next, size, used, load32_store32,
    load32_store32_of_apart _ _ hPrev,
    load32_store32_of_apart _ _ (h (j := 8) (k := 4) (by omega) (by omega)),
    load8_store32_of_apart _ _ (h (j := 12) (k := 1) (by omega) (by omega))]

theorem chunkAt_setSize (m : Memory) (c v : Nat) :
    chunkAt (setSize m c v) c = { chunkAt m c with size := v % 4294967296 } := by
  have hPrev : Apart (c + 8) 4 c 4 := (fields_apart (i := 0) (j := 8) (by omega) (by omega)).symm
  have hNext : Apart (c + 8) 4 (c + 4) 4 := (fields_apart (by omega) (by omega)).symm
  have hUsed : Apart (c + 8) 4 (c + 12) 1 := fields_apart (by omega) (by omega)
  simp only [chunkAt, setSize, prev, next, size, used, load32_store32,
    load32_store32_of_apart _ _ hPrev, load32_store32_of_apart _ _ hNext,
    load8_store32_of_apart _ _ hUsed]

theorem chunkAt_setUsed (m : Memory) (c : Nat) (b : Bool) :
    chunkAt (setUsed m c b) c = { chunkAt m c with used := b } := by
  have h {j k : Nat} (hk : j + k ≤ 12) : Apart (c + 12) 1 (c + j) k :=
    (fields_apart hk (by omega)).symm
  have hPrev : Apart (c + 12) 1 c 4 := h (j := 0) (by omega)
  simp only [chunkAt, setUsed, prev, next, size, used, load8_store8,
    load32_store8_of_apart _ _ hPrev,
    load32_store8_of_apart _ _ (h (j := 4) (k := 4) (by omega)),
    load32_store8_of_apart _ _ (h (j := 8) (k := 4) (by omega))]
  cases b <;> simp

theorem chunkAt_clearChunk (m : Memory) (c : Nat) :
    chunkAt (clearChunk m c) c = ⟨0, 0, 0, false⟩ := by
  have hWord {i : Nat} (hi : i + 4 ≤ 13) : load32 (fill m c 0 13) (c + i) = 0 :=
    load32_fill_zero m c hi (by omega)
  have hUsed : load8 (fill m c 0 13) (c + 12) = 0 := load8_fill m c 0 (by omega) (by omega)
  have hPrev : load32 (fill m c 0 13) c = 0 := hWord (i := 0) (by omega)
  simp [chunkAt, clearChunk, prev, next, size, used, hUsed, hPrev, hWord (i := 4),
    hWord (i := 8)]

/-! ## Everything else is unchanged -/

variable {m : Memory} {b c n : Nat}

theorem sameOn_setPrev (v : Nat) (h : Apart c 13 b n) : SameOn m (setPrev m c v) b n :=
  sameOn_store32 m v (h.sub (by omega) (by omega))

theorem sameOn_setNext (v : Nat) (h : Apart c 13 b n) : SameOn m (setNext m c v) b n :=
  sameOn_store32 m v (h.sub (by omega) (by omega))

theorem sameOn_setSize (v : Nat) (h : Apart c 13 b n) : SameOn m (setSize m c v) b n :=
  sameOn_store32 m v (h.sub (by omega) (by omega))

theorem sameOn_setUsed (v : Bool) (h : Apart c 13 b n) : SameOn m (setUsed m c v) b n :=
  sameOn_store8 m _ (h.sub (by omega) (by omega))

theorem sameOn_clearChunk (h : Apart c 13 b n) : SameOn m (clearChunk m c) b n :=
  sameOn_fill m 0 h

theorem chunkAt_congr {m m' : Memory} {c : Nat} (h : SameOn m m' c 13) :
    chunkAt m' c = chunkAt m c := by
  have hPrev := load32_congr (h.sub (b := c) (k := 4) (by omega))
  have hNext := load32_congr (h.sub (b := c + 4) (k := 4) (by omega))
  have hSize := load32_congr (h.sub (b := c + 8) (k := 4) (by omega))
  have hUsed := load8_congr (h.sub (b := c + 12) (k := 1) (by omega))
  simp only [chunkAt, prev, next, size, used, hPrev, hNext, hSize, hUsed]

end Juos.Kmm
