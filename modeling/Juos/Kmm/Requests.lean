import Juos.Kmm.Allocator

/-!
# What `malloc` asks for

`malloc` adds the header and rounds up to a multiple of eight before it calls `__malloc_big`. The
sum is a 32-bit number and the rounded value is cut to 32 bits again, so only the requests that are
larger than `2 ^ 32 - 21` bytes are not what they should be: the chunk they ask for has 0, 8 or 16
bytes.
-/

namespace Juos.Kmm

open Machine

variable {size : Nat}

/-- The rounding commutes with the reduction, since 8 divides `2 ^ 32`. -/
theorem reqSize_eq_mod (size : Nat) :
    reqSize size = (size + 13 + (8 - (size + 13) % 8) % 8) % 4294967296 := by
  have hLt : (size + 13) % 4294967296 < 4294967296 := Nat.mod_lt _ (by omega)
  unfold reqSize sizeofBigChunk
  rw [alignVal_eight hLt]
  omega

theorem reqSize_lt (size : Nat) : reqSize size < 4294967296 := Nat.mod_lt _ (by omega)

theorem chunkSizeAlign_dvd_reqSize (size : Nat) : chunkSizeAlign ∣ reqSize size := by
  rw [reqSize_eq_mod]
  unfold chunkSizeAlign
  omega

/-- There is room for the header and the data unless the sum or the rounding wraps. -/
theorem le_reqSize_iff (hSize : size < 4294967296) :
    size + sizeofBigChunk ≤ reqSize size ↔ size + 20 < 4294967296 := by
  rw [reqSize_eq_mod]
  unfold sizeofBigChunk
  omega

/-- A request that wraps asks for a chunk that is hardly larger than its header. -/
theorem reqSize_cases (hBig : fastbinThreshold < size) (hSize : size < 4294967296) :
    80 ≤ reqSize size ∨ reqSize size = 0 ∨ reqSize size = 8 ∨ reqSize size = 16 := by
  rw [reqSize_eq_mod]
  unfold fastbinThreshold at hBig
  omega

/-! ## Requests for big chunks -/

theorem malloc_big (fuel : Nat) (mm : MemoryManager) (m : Memory)
    (hBig : fastbinThreshold < size) :
    malloc fuel mm m size = (mallocBig fuel mm.mappedHeap m (reqSize size)).map fun r =>
      (r.1, { mm with mappedHeap := r.2.1 }, r.2.2) := by
  rw [malloc, if_neg (by omega), if_neg (by omega)]

/-- A request for a big chunk does not fail. The pointer is null only for a header 13 bytes below
the end of the address space, and then the chunk has been counted. -/
theorem malloc_big_ne_fail (fuel : Nat) (mm : MemoryManager) (m : Memory)
    (hBig : fastbinThreshold < size) : malloc fuel mm m size ≠ some (0, mm, m) := by
  intro hFail
  rw [malloc_big fuel mm m hBig] at hFail
  obtain ⟨r, hRun, hEq⟩ := Option.map_eq_some_iff.mp hFail
  obtain ⟨p, -, hPtr, hHeap, -⟩ := mallocBig_eq_some hRun
  have hNull : r.1 = 0 := congrArg Prod.fst hEq
  have hSame : r.2.1 = mm.mappedHeap :=
    congrArg (fun x : Nat × MemoryManager × Memory => x.2.1.mappedHeap) hEq
  by_cases hz : (putChunk m (reqSize size) p).1 = 0
  · rw [hPtr, hz] at hNull
    cases hNull
  · rw [if_pos hz] at hHeap
    have hCount := congrArg Heap.allocatedChunks (hHeap.symm.trans hSame)
    dsimp only at hCount
    omega

/-- What `malloc` passes on is a multiple of `CHUNK_SIZE_ALIGN` with room for the header and the
data, or `malloc` fails and changes nothing. -/
def NeverShrinks (fuel : Nat) (mm : MemoryManager) (m : Memory) (size : Nat) : Prop :=
  (chunkSizeAlign ∣ reqSize size ∧ size + sizeofBigChunk ≤ reqSize size) ∨
    malloc fuel mm m size = some (0, mm, m)

/-- `malloc` passes `reqSize size` to `__malloc_big`, and this is large enough exactly when the size
with its header can be rounded up within 32 bits. -/
theorem neverShrinks_iff (fuel : Nat) (mm : MemoryManager) (m : Memory)
    (hBig : fastbinThreshold < size) (hSize : size < 4294967296) :
    malloc fuel mm m size = (mallocBig fuel mm.mappedHeap m (reqSize size)).map (fun r =>
      (r.1, { mm with mappedHeap := r.2.1 }, r.2.2)) ∧
    (NeverShrinks fuel mm m size ↔ size + 20 < 4294967296) := by
  refine ⟨malloc_big fuel mm m hBig, ?_⟩
  rw [NeverShrinks, or_iff_left (malloc_big_ne_fail fuel mm m hBig), le_reqSize_iff hSize]
  exact and_iff_right (chunkSizeAlign_dvd_reqSize size)

/-- The memory manager of the kernel before it is first asked. -/
theorem neverShrinks_iff_boot : ∃ mm,
    memoryManagerInitialize 0xC0000000 0xC1000000 0xCFFFF000 true true = some mm ∧
    malloc 1 mm (fun _ => 0) 100 = (mallocBig 1 mm.mappedHeap (fun _ => 0) (reqSize 100)).map
      (fun r => (r.1, { mm with mappedHeap := r.2.1 }, r.2.2)) ∧
    (NeverShrinks 1 mm (fun _ => 0) 100 ↔ 100 + 20 < 4294967296) :=
  ⟨_, rfl, neverShrinks_iff 1 _ _ (by decide) (by decide)⟩

/-- Asked for all but 13 bytes of the address space, `malloc` takes a chunk of no bytes. -/
theorem not_neverShrinks_of_wrap : ∃ mm,
    memoryManagerInitialize 0xC0000000 0xC1000000 0xCFFFF000 true true = some mm ∧
    reqSize 0xFFFFFFF3 = 0 ∧ ¬ NeverShrinks 1 mm (fun _ => 0) 0xFFFFFFF3 := by
  refine ⟨_, rfl, by decide, ?_⟩
  rintro (⟨-, hRoom⟩ | hFail)
  · exact absurd hRoom (by decide)
  · exact malloc_big_ne_fail 1 _ _ (by decide) hFail

end Juos.Kmm
