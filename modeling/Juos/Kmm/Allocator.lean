import Juos.Kmm.Chunk
import Mathlib.Logic.Function.Basic

/-!
# The memory manager

The allocator of `kmm.cpp`: a pool of small chunks (the fast bin) below one address, and above
it a doubly linked list of big chunks whose headers live in the heap itself. The three globals
`__fast_bin`, `_fastbin_area_end` and `__mapped_heap` are one record; the chunk headers are
bytes of the memory seen through the loaded page directory.

`malloc` walks the list along `next`, and nothing bounds that walk, so it takes the number of
links it may follow. `none` means that more were needed.
-/

namespace Juos.Kmm

open Machine

abbrev fastbinThreshold : Nat := 0x40

abbrev fastbinMaxSize : Nat := 0x64

abbrev chunkSizeAlign : Nat := 8

abbrev sizeofFastChunk : Nat := 4

abbrev bigchunkMinSpace : Nat := sizeofBigChunk + fastbinThreshold + 1

/-! ## Pointer arithmetic and rounding (`kuseful.h`) -/

def ptrAdvance (p n : Nat) : Nat := (p + n) % 4294967296

def ptrSub (a b : Nat) : Nat := (a + 4294967296 - b) % 4294967296

/-- The difference of two `big_chunk_t*`: the byte distance divided by 13. The language leaves
it undefined when 13 does not divide the distance; the compiler multiplies by the inverse of 13
modulo `2 ^ 32`, which is the quotient whenever there is one. -/
def chunkDiff (a b : Nat) : Nat := ptrSub a b * 3303820997 % 4294967296

/-- `ALIGN_VAL`, on 64-bit values -/
def alignVal (value alignment : Nat) : Nat :=
  (value + ((18446744073709551616 - value) % 18446744073709551616 &&& (alignment - 1))) %
    18446744073709551616

/-! ## The globals -/

structure FastBin where
  /-- `chunks[i].ptr_to_heap`, null while slot `i` is free -/
  chunks : Nat → Nat
  chunkSize : Nat
  binSize : Nat
  startAddr : Nat
  endAddr : Nat

structure Heap where
  fastBins : Nat
  bigChunks : Nat
  allocatedChunks : Nat
  startAddress : Nat
  endAddress : Nat
  maxAddress : Nat
  isKernel : Bool
  rw : Bool

structure MemoryManager where
  fastBin : FastBin
  fastbinAreaEnd : Nat
  mappedHeap : Heap

/-- `MemoryManager::Initialize` up to the call that enables paging. `none` is the failed
assertion on the alignment of the region. The first chunk is cleared while paging is still off,
so the bytes later seen at its address are not the ones that were written. -/
def memoryManagerInitialize (start stop max : Nat) (isKernel rw : Bool) : Option MemoryManager :=
  let endAddr := ptrAdvance start ((sizeofFastChunk + fastbinThreshold) * fastbinMaxSize)
  let fastbinAreaEnd := ptrAdvance start (ptrSub endAddr start)
  if start % 4096 = 0 ∧ stop % 4096 = 0 then
    some
      { fastBin :=
          { chunks := fun _ => 0
            chunkSize := fastbinThreshold
            binSize := fastbinMaxSize
            startAddr := start
            endAddr := endAddr }
        fastbinAreaEnd := fastbinAreaEnd
        mappedHeap :=
          { fastBins := start
            bigChunks := fastbinAreaEnd
            allocatedChunks := 0
            startAddress := start
            endAddress := stop
            maxAddress := max
            isKernel := isKernel
            rw := rw } }
  else none

/-! ## Small chunks -/

/-- `__fast_bin->chunks[i].ptr_to_heap = v` -/
def setSlot (mm : MemoryManager) (i v : Nat) : MemoryManager :=
  { mm with fastBin := { mm.fastBin with chunks := Function.update mm.fastBin.chunks i v } }

@[simp] theorem setSlot_chunks (mm : MemoryManager) (i v : Nat) :
    (setSlot mm i v).fastBin.chunks = Function.update mm.fastBin.chunks i v := rfl

/-- `__malloc_fastbin`: the first free slot, or null when every slot is taken -/
def mallocFastbin (mm : MemoryManager) : Nat × MemoryManager :=
  match (List.range mm.fastBin.binSize).find? (fun i => mm.fastBin.chunks i = 0) with
  | none => (0, mm)
  | some i =>
    let heapAddr := ptrAdvance mm.mappedHeap.fastBins (i * mm.fastBin.chunkSize / 4 * 4)
    (heapAddr, setSlot mm i heapAddr)

def freeFastbin (mm : MemoryManager) (ptr : Nat) : MemoryManager :=
  setSlot mm (ptrSub ptr mm.mappedHeap.fastBins / fastbinThreshold) 0

theorem mallocFastbin_cases (mm : MemoryManager) :
    mallocFastbin mm = (0, mm) ∨ ∃ i < mm.fastBin.binSize, mm.fastBin.chunks i = 0 ∧
      mallocFastbin mm =
        (ptrAdvance mm.mappedHeap.fastBins (i * mm.fastBin.chunkSize / 4 * 4),
          setSlot mm i
            (ptrAdvance mm.mappedHeap.fastBins (i * mm.fastBin.chunkSize / 4 * 4))) := by
  unfold mallocFastbin
  cases hFind : (List.range mm.fastBin.binSize).find? (fun i => mm.fastBin.chunks i = 0) with
  | none => exact Or.inl rfl
  | some i =>
    refine Or.inr ⟨i, List.mem_range.mp (List.mem_of_find?_eq_some hFind), ?_, rfl⟩
    simpa using List.find?_some hFind

/-! ## Big chunks -/

/-- Where `__malloc_big` puts a chunk: in the first chunk of the list, in a free chunk, or
behind the last chunk. -/
inductive Placement where
  | first (c : Nat)
  | hole (c : Nat)
  | append (last : Nat)
  deriving DecidableEq, Repr

/-- The `while (curr_chunk->next)` loop. It stops at the first free chunk that is large
enough. -/
def searchHole (m : Memory) (reqSize : Nat) : Nat → Nat → Option Placement
  | 0, _ => none
  | fuel + 1, curr =>
    if next m curr = 0 then some (.append curr)
    else if used m curr = false ∧ ptrSub (next m curr) curr < 4294967295 ∧
        reqSize ≤ ptrSub (next m curr) curr then some (.hole curr)
    else searchHole m reqSize fuel (next m curr)

def place (fuel : Nat) (h : Heap) (m : Memory) (reqSize : Nat) : Option Placement :=
  if h.allocatedChunks = 0 then some (.first h.bigChunks)
  else searchHole m reqSize fuel h.bigChunks

/-- The branch that reuses a free chunk. The loop has set `smallest_hole_value` to `req_size`,
which is what the test for a remainder subtracts from. -/
def reuseHole (m : Memory) (reqSize ret : Nat) : Memory :=
  let m := setUsed m ret true
  if reqSize < ptrSub reqSize bigchunkMinSpace then
    let unusedChunk := ptrAdvance ret reqSize
    let m := clearChunk m unusedChunk
    let m := setSize m unusedChunk (ptrSub (ptrSub (next m ret) ret) reqSize)
    let tmp := next m ret
    let m := setNext m ret unusedChunk
    let m := setPrev m tmp unusedChunk
    let m := setPrev m unusedChunk ret
    setNext m unusedChunk tmp
  else
    setSize m ret (ptrSub (chunkDiff (next m ret) ret) 1)

/-- The branch that appends a chunk behind `last`. -/
def appendChunk (m : Memory) (reqSize last : Nat) : Memory :=
  let newChunk := ptrAdvance last (size m last)
  let m := clearChunk m newChunk
  let m := setNext m last newChunk
  let m := setPrev m newChunk last
  let m := setUsed m newChunk true
  setSize m newChunk reqSize

/-- The address of the chunk, before the machine reduces it. -/
def chunkAddress (m : Memory) : Placement → Nat
  | .first c => c
  | .hole c => c
  | .append last => last + size m last

/-- The chunk that is handed out, and the memory with its header written. -/
def putChunk (m : Memory) (reqSize : Nat) : Placement → Nat × Memory
  | .first c => (c, setUsed (setSize m c reqSize) c true)
  | .hole c => (c, reuseHole m reqSize c)
  | .append last => (ptrAdvance last (size m last), appendChunk m reqSize last)

def mallocBig (fuel : Nat) (h : Heap) (m : Memory) (reqSize : Nat) :
    Option (Nat × Heap × Memory) :=
  (place fuel h m reqSize).map fun p =>
    let r := putChunk m reqSize p
    (ptrAdvance r.1 sizeofBigChunk,
      if r.1 ≠ 0 then { h with allocatedChunks := (h.allocatedChunks + 1) % 4294967296 } else h,
      r.2)

theorem mallocBig_eq_some {fuel : Nat} {h : Heap} {m : Memory} {req : Nat}
    {r : Nat × Heap × Memory} (hRun : mallocBig fuel h m req = some r) :
    ∃ p, place fuel h m req = some p ∧ r.1 = ptrAdvance (putChunk m req p).1 sizeofBigChunk ∧
      r.2.1 = (if (putChunk m req p).1 ≠ 0 then
        { h with allocatedChunks := (h.allocatedChunks + 1) % 4294967296 } else h) ∧
      r.2.2 = (putChunk m req p).2 := by
  obtain ⟨p, hp, rfl⟩ := Option.map_eq_some_iff.mp hRun
  exact ⟨p, hp, rfl, rfl, rfl⟩

/-- `__free_big`, first part: merge the chunk with the free chunk behind it. -/
def consolidateForwards (m : Memory) (chunk : Nat) : Memory :=
  if next m chunk ≠ 0 ∧ used m (next m chunk) = false then
    let tmp := next m chunk
    let m := setNext m chunk (next m tmp)
    let m := if next m tmp ≠ 0 then setPrev m (next m tmp) chunk else m
    setSize m chunk (size m chunk + (size m tmp + sizeofBigChunk))
  else m

/-- `__free_big`, second part: take over from the free chunk before it. -/
def consolidateBackwards (m : Memory) (chunk : Nat) : Memory :=
  if prev m chunk ≠ 0 ∧ used m (prev m chunk) = false then
    let tmp := prev m chunk
    let m := setPrev m chunk (prev m tmp)
    let m := if prev m tmp ≠ 0 then setNext m (prev m tmp) chunk else m
    setSize m chunk (size m chunk + (size m tmp + sizeofBigChunk))
  else m

def freeBig (h : Heap) (m : Memory) (ptr : Nat) : Heap × Memory :=
  let chunk := ptrSub ptr sizeofBigChunk
  let m := setUsed m chunk false
  let m := consolidateForwards m chunk
  let m := consolidateBackwards m chunk
  ({ h with allocatedChunks := ptrSub h.allocatedChunks 1 }, m)

theorem freeBig_fst (h : Heap) (m : Memory) (ptr : Nat) :
    (freeBig h m ptr).1 = { h with allocatedChunks := ptrSub h.allocatedChunks 1 } := rfl

/-! ## `malloc` and `free` -/

/-- The size `malloc` asks `__malloc_big` for. -/
def reqSize (size : Nat) : Nat :=
  alignVal ((size + sizeofBigChunk) % 4294967296) chunkSizeAlign % 4294967296

def malloc (fuel : Nat) (mm : MemoryManager) (m : Memory) (size : Nat) :
    Option (Nat × MemoryManager × Memory) :=
  if size = 0 then some (0, mm, m)
  else if size ≤ fastbinThreshold then
    let r := mallocFastbin mm
    some (r.1, r.2, m)
  else
    (mallocBig fuel mm.mappedHeap m (reqSize size)).map fun r =>
      (r.1, { mm with mappedHeap := r.2.1 }, r.2.2)

def free (mm : MemoryManager) (m : Memory) (ptr : Nat) : MemoryManager × Memory :=
  if mm.mappedHeap.fastBins ≤ ptr ∧ ptr ≤ mm.mappedHeap.bigChunks then (freeFastbin mm ptr, m)
  else
    let r := freeBig mm.mappedHeap m ptr
    ({ mm with mappedHeap := r.1 }, r.2)

/-! ## Rounding a request -/

theorem alignVal_eight {v : Nat} (hv : v < 4294967296) :
    alignVal v chunkSizeAlign = v + (8 - v % 8) % 8 := by
  have hMask : ∀ x : Nat, x &&& (8 - 1) = x % 8 := fun x => Nat.and_two_pow_sub_one_eq_mod x 3
  unfold alignVal chunkSizeAlign
  rw [hMask]
  omega

/-- A request that does not wrap is rounded up to a multiple of 8, header included. -/
theorem reqSize_eq {size : Nat} (hSize : size + 20 < 4294967296) :
    reqSize size = size + 13 + (8 - (size + 13) % 8) % 8 := by
  unfold reqSize sizeofBigChunk
  rw [Nat.mod_eq_of_lt (by omega : size + 13 < 4294967296), alignVal_eight (by omega)]
  omega

theorem reqSize_bounds {size : Nat} (hSize : size + 20 < 4294967296) :
    size + 13 ≤ reqSize size ∧ reqSize size < size + 21 := by
  rw [reqSize_eq hSize]
  omega

theorem ptrAdvance_of_lt {p n : Nat} (h : p + n < 4294967296) : ptrAdvance p n = p + n :=
  Nat.mod_eq_of_lt h

theorem ptrSub_of_le {a b : Nat} (hLe : b ≤ a) (ha : a < 4294967296) : ptrSub a b = a - b := by
  unfold ptrSub
  omega

end Juos.Kmm
