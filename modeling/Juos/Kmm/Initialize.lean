import Juos.Kmm.Allocator
import Juos.Paging.Translation

/-!
# The heap that boot hands over

`MemoryManager::Initialize` clears the first chunk and then switches paging on. The address it
clears is a physical one; from then on the same address leads to another frame, so the header
that `malloc` finds is whatever that frame held when the machine was started
(`headerClear_iff`). The slots of the fast bin do not have this problem: their table lies on the
primitive heap, which paging maps to itself.
-/

namespace Juos.Kmm

open Machine Paging

/-- `sizeof(fast_bin_t)` -/
abbrev sizeofFastBin : Nat := 20

/-- `sizeof(heap_t)` -/
abbrev sizeofHeap : Nat := 26

/-- The primitive heap after `__fast_bin`, its chunks and `__mapped_heap` were allocated. -/
def allocateGlobals (start primitiveHeap : Nat) : Nat :=
  let fastBin := allocate sizeofFastBin primitiveHeap
  let endAddr := ptrAdvance start ((sizeofFastChunk + fastbinThreshold) * fastbinMaxSize)
  let chunks := allocate (ptrSub endAddr start) fastBin.primitiveHeap
  (allocate sizeofHeap chunks.primitiveHeap).primitiveHeap

/-- `MemoryManager::Initialize` with the physical memory `m`. The image and the primitive heap
behind it hold `objects`, which are modelled on their own. -/
def memoryManagerInitializePaged (start stop max : Nat) (isKernel rw : Bool) (objects m : Memory)
    (s : PagingState) : Option (MemoryManager × Memory × PagingState) :=
  (memoryManagerInitialize start stop max isKernel rw).bind fun mm =>
    -- paging is off, so the address of the chunk is a physical address
    let cleared := clearChunk m mm.mappedHeap.bigChunks
    (pagingInitialize (some (start, stop))
      { s with primitiveHeap := allocateGlobals start s.primitiveHeap }).map fun t =>
        (mm, fun a => if a < t.primitiveHeap then objects a else cleared a, t)

/-! ## Headers of zeros -/

theorem load32_eq_zero_iff (m : Memory) (a : Nat) :
    load32 m a = 0 ↔ ∀ i < 4, load8 m (a + i) = 0 := by
  unfold load32
  constructor
  · intro hZero i hi
    have hi' : i = 0 ∨ i = 1 ∨ i = 2 ∨ i = 3 := by omega
    rcases hi' with rfl | rfl | rfl | rfl
    · rw [Nat.add_zero]
      omega
    · omega
    · omega
    · omega
  · intro hAll
    have h₀ := hAll 0 (by omega)
    rw [Nat.add_zero] at h₀
    rw [h₀, hAll 1 (by omega), hAll 2 (by omega), hAll 3 (by omega)]

/-- A header is clear when its 13 bytes are zero. -/
theorem chunkAt_eq_clear_iff (m : Memory) (c : Nat) :
    chunkAt m c = ⟨0, 0, 0, false⟩ ↔ ∀ i < 13, load8 m (c + i) = 0 := by
  have hFields : chunkAt m c = ⟨0, 0, 0, false⟩ ↔ load32 m c = 0 ∧ load32 m (c + 4) = 0 ∧
      load32 m (c + 8) = 0 ∧ load8 m (c + 12) = 0 := by
    simp [chunkAt, prev, next, size, used]
  rw [hFields, load32_eq_zero_iff, load32_eq_zero_iff, load32_eq_zero_iff]
  constructor
  · rintro ⟨hPrev, hNext, hSize, hUsed⟩ i hi
    rcases Nat.lt_or_ge i 4 with h4 | h4
    · exact hPrev i h4
    · rcases Nat.lt_or_ge i 8 with h8 | h8
      · have := hNext (i - 4) (by omega)
        rwa [show c + 4 + (i - 4) = c + i by omega] at this
      · rcases Nat.lt_or_ge i 12 with h12 | h12
        · have := hSize (i - 8) (by omega)
          rwa [show c + 8 + (i - 8) = c + i by omega] at this
        · rwa [show i = 12 by omega]
  · intro hAll
    refine ⟨fun i hi => hAll i (by omega), fun i hi => ?_, fun i hi => ?_, hAll 12 (by omega)⟩
    · rw [Nat.add_assoc]
      exact hAll (4 + i) (by omega)
    · rw [Nat.add_assoc]
      exact hAll (8 + i) (by omega)

/-! ## Running it -/

variable {start : Nat} {t : PagingState}

theorem allocateGlobals_eq (hStart : start + 6800 < 4294967296) {heap : Nat}
    (hHeap : heap ≤ 0x1E0000) :
    allocateGlobals start heap = (heap + 4095) / 4096 * 4096 + 12314 := by
  have hEnd : ptrAdvance start ((sizeofFastChunk + fastbinThreshold) * fastbinMaxSize) =
      start + 6800 := ptrAdvance_of_lt (n := 6800) hStart
  have hReserve : ptrSub (start + 6800) start = 6800 := by
    rw [ptrSub_of_le (by omega) hStart, Nat.add_sub_cancel_left]
  have hFirst : allocate sizeofFastBin heap = _ := allocate_eq (by unfold sizeofFastBin; omega)
  have hSecond : allocate 6800 ((heap + 4095) / 4096 * 4096 + sizeofFastBin) = _ :=
    allocate_eq (by unfold sizeofFastBin; omega)
  have hThird : allocate sizeofHeap
      (((heap + 4095) / 4096 * 4096 + sizeofFastBin + 4095) / 4096 * 4096 + 6800) = _ :=
    allocate_eq (by unfold sizeofFastBin sizeofHeap; omega)
  simp only [allocateGlobals, hEnd, hReserve, hFirst, hSecond, hThird]
  unfold sizeofFastBin sizeofHeap
  omega

/-- Through the map that boot leaves, the heap is read `0xBFE00000` below its address. -/
theorem load8_virtualMemory (h : InitialMap t) (m : Memory) {a : Nat} (ha : 0xC0000000 ≤ a)
    (hEnd : a < 0xC1000000) :
    load8 (virtualMemory t m) a = load8 m (a - 0xC0000000 + 0x200000) := by
  unfold load8 virtualMemory
  rw [Nat.mod_eq_of_lt (by omega : a < 4294967296), h.translate_heap ha hEnd,
    Nat.mod_eq_of_lt (by omega : a - 0xC0000000 + 0x200000 < 4294967296)]
  rfl

/-- `MemoryManager::Initialize` returns, and the first header consists of the bytes that the frame
behind it held before. -/
theorem initialize_header (start stop max : Nat) (isKernel rw : Bool) (objects m : Memory)
    (s : PagingState) (hStart : start % 4096 = 0) (hStop : stop % 4096 = 0)
    (hHeap : 0xC0000000 ≤ start) (hRegion : start + 6813 ≤ 0xC1000000) (hPos : 0 < s.primitiveHeap)
    (hImage : s.primitiveHeap ≤ 0x1E0000) :
    ∃ mm m' t, memoryManagerInitializePaged start stop max isKernel rw objects m s =
        some (mm, m', t) ∧ t.pagingEnabled = true ∧ (∀ i, mm.fastBin.chunks i = 0) ∧
      ∀ i < 13, load8 (virtualMemory t m') (mm.mappedHeap.bigChunks + i) =
        load8 m (start + 6800 - 0xC0000000 + 0x200000 + i) := by
  have hGlobals := allocateGlobals_eq (by omega : start + 6800 < 4294967296) hImage
  have hEnd : ImageEnd { s with primitiveHeap := allocateGlobals start s.primitiveHeap } := by
    constructor
    · simp only
      omega
    · simp only
      omega
  obtain ⟨u, v, hBoots⟩ := boots hEnd (some (start, stop))
  obtain ⟨hMap, hObjects⟩ := initialMap_of_boot hEnd hBoots.result
  simp only [hGlobals] at hObjects
  have hInit : ∃ mm, memoryManagerInitialize start stop max isKernel rw = some mm ∧
      mm.mappedHeap.bigChunks = start + 6800 ∧ ∀ i, mm.fastBin.chunks i = 0 := by
    have hBin : ptrAdvance start ((sizeofFastChunk + fastbinThreshold) * fastbinMaxSize) =
        start + 6800 := ptrAdvance_of_lt (n := 6800) (by omega)
    refine ⟨_, if_pos ⟨hStart, hStop⟩, ?_, fun _ => rfl⟩
    simp only [hBin]
    rw [ptrSub_of_le (by omega) (by omega), Nat.add_sub_cancel_left]
    exact ptrAdvance_of_lt (by omega)
  obtain ⟨mm, hInit, hBig, hSlots⟩ := hInit
  have hRun : memoryManagerInitializePaged start stop max isKernel rw objects m s =
      some (mm, fun a => if a < (enablePaging v).primitiveHeap then objects a
        else clearChunk m mm.mappedHeap.bigChunks a, enablePaging v) := by
    rw [memoryManagerInitializePaged, hInit, Option.bind_some, hBoots.result, Option.map_some]
  refine ⟨mm, _, _, hRun, rfl, hSlots, fun i hi => ?_⟩
  rw [hBig, load8_virtualMemory hMap _ (by omega) (by omega),
    show start + 6800 + i - 0xC0000000 + 0x200000 =
      start + 6800 - 0xC0000000 + 0x200000 + i by omega]
  have hAbove : ¬ (start + 6800 - 0xC0000000 + 0x200000 + i) % 4294967296 <
      (enablePaging v).primitiveHeap := by omega
  have hCleared : SameOn m (clearChunk m (start + 6800))
      (start + 6800 - 0xC0000000 + 0x200000) 13 :=
    sameOn_clearChunk (apart_of_ge (by omega) (by omega))
  refine Eq.trans ?_ (hCleared i hi)
  exact congrArg UInt8.toNat (if_neg hAbove)

/-- The heap begins with a clear header exactly when the frame behind the first chunk held zeros.
The image ends low enough for the objects of boot to stay in the region that is mapped to itself. -/
theorem headerClear_iff (start stop max : Nat) (isKernel rw : Bool) (objects m : Memory)
    (s : PagingState) (hStart : start % 4096 = 0) (hStop : stop % 4096 = 0)
    (hHeap : 0xC0000000 ≤ start) (hRegion : start + 6813 ≤ 0xC1000000) (hPos : 0 < s.primitiveHeap)
    (hImage : s.primitiveHeap ≤ 0x1E0000) :
    ∃ mm m' t, memoryManagerInitializePaged start stop max isKernel rw objects m s =
        some (mm, m', t) ∧ t.pagingEnabled = true ∧
      ((chunkAt (virtualMemory t m') mm.mappedHeap.bigChunks = ⟨0, 0, 0, false⟩ ∧
          ∀ i < mm.fastBin.binSize, mm.fastBin.chunks i = 0) ↔
        ∀ i < 13, load8 m (start + 6800 - 0xC0000000 + 0x200000 + i) = 0) := by
  obtain ⟨mm, m', t, hInit, hEnabled, hSlots, hBytes⟩ :=
    initialize_header start stop max isKernel rw objects m s hStart hStop hHeap hRegion hPos hImage
  refine ⟨mm, m', t, hInit, hEnabled, ?_⟩
  rw [chunkAt_eq_clear_iff]
  constructor
  · intro hClear i hi
    rw [← hBytes i hi]
    exact hClear.1 i hi
  · intro hZero
    refine ⟨fun i hi => ?_, fun i _ => hSlots i⟩
    rw [hBytes i hi]
    exact hZero i hi

/-! ## The kernel's heap -/

theorem headerClear_iff_zeros : ∃ mm m' t,
    memoryManagerInitializePaged 0xC0000000 0xC1000000 0xCFFFF000 false true (fun _ => 0)
      (fun _ => 0) kernelImage = some (mm, m', t) ∧
      chunkAt (virtualMemory t m') mm.mappedHeap.bigChunks = ⟨0, 0, 0, false⟩ := by
  obtain ⟨mm, m', t, hInit, -, hIff⟩ := headerClear_iff 0xC0000000 0xC1000000 0xCFFFF000 false
    true (fun _ => 0) (fun _ => 0) kernelImage (by decide) (by decide) (by decide) (by decide)
    (by decide) (by decide)
  exact ⟨mm, m', t, hInit, (hIff.mpr fun _ _ => rfl).1⟩

/-- Memory that holds ones: the first chunk is in use and leads to the last byte of memory. -/
theorem not_headerClear_of_ones : ∃ mm m' t,
    memoryManagerInitializePaged 0xC0000000 0xC1000000 0xCFFFF000 false true (fun _ => 0)
      (fun _ => 0xFF) kernelImage = some (mm, m', t) ∧ t.pagingEnabled = true ∧
      chunkAt (virtualMemory t m') mm.mappedHeap.bigChunks ≠ ⟨0, 0, 0, false⟩ := by
  obtain ⟨mm, m', t, hInit, hEnabled, -, hBytes⟩ :=
    initialize_header 0xC0000000 0xC1000000 0xCFFFF000 false true (fun _ => 0)
      (fun _ => 0xFF) kernelImage (by decide) (by decide) (by decide) (by decide)
      (by decide) (by decide)
  refine ⟨mm, m', t, hInit, hEnabled, fun hClear => ?_⟩
  have hFirst := (chunkAt_eq_clear_iff _ _).mp hClear 0 (by decide)
  rw [hBytes 0 (by decide)] at hFirst
  revert hFirst
  decide

end Juos.Kmm
