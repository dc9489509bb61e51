import Juos.DataStructures.QueueRuns
import Juos.Kmm.Region

/-!
# The pool of small blocks

The slots of the fast bin against the blocks that callers hold. A slot is taken exactly while the
block at its address is live, `malloc` answers a small request with the lowest block that is not
live, and `free` tells small pointers from big ones by their address, as long as no big chunk is
placed below `big_chunks` or so high that the pointer behind its header wraps. What the blocks and
the headers hold does not matter.
-/

namespace Juos.Kmm

open Machine HeapSystem DataStructures

variable {ι : Type} {start stop max : Nat} {isKernel rw : Bool}
  {mm : MemoryManager} {s t : HeapSystem ι}

/-! ## The slots -/

/-- The first free slot gives its address; null is returned only if there is none. -/
theorem mallocFastbin_spec (h : Globals start mm) :
    (∃ i < 100, mm.fastBin.chunks i = 0 ∧ (∀ j < i, mm.fastBin.chunks j ≠ 0) ∧
      mallocFastbin mm = (start + 64 * i, setSlot mm i (start + 64 * i))) ∨
    ((∀ i < 100, mm.fastBin.chunks i ≠ 0) ∧ mallocFastbin mm = (0, mm)) := by
  have hFits := h.fits
  unfold bigStart at hFits
  unfold mallocFastbin
  rw [h.binSize, h.chunkSize, h.fastBins]
  cases hFind : (List.range 100).find? (fun i => mm.fastBin.chunks i = 0) with
  | none =>
    right
    refine ⟨?_, rfl⟩
    intro i hi
    simpa using List.find?_eq_none.mp hFind i (List.mem_range.mpr hi)
  | some i =>
    left
    obtain ⟨hFree, hMem, hBelow⟩ := List.find?_range_eq_some.mp hFind
    have hi := List.mem_range.mp hMem
    have hAddr : ptrAdvance start (i * 64 / 4 * 4) = start + 64 * i := by
      rw [ptrAdvance_of_lt (by omega)]
      omega
    refine ⟨i, hi, by simpa using hFree, ?_, ?_⟩
    · intro j hj
      simpa using hBelow j hj
    · dsimp only
      rw [hAddr]

/-- The pointer to a slot is sent back to the slot. -/
theorem free_slot (h : Globals start mm) (m : Memory) {i : Nat} (hi : i < 100) :
    free mm m (start + 64 * i) = (setSlot mm i 0, m) := by
  have hFits := h.fits
  unfold bigStart at hFits
  have hIndex : ptrSub (start + 64 * i) start / fastbinThreshold = i := by
    rw [ptrSub_of_le (by omega) (by omega)]
    unfold fastbinThreshold
    omega
  have hBelow : start + 64 * i ≤ bigStart start := by
    unfold bigStart
    omega
  rw [free, h.fastBins, h.bigChunks, if_pos ⟨Nat.le_add_right _ _, hBelow⟩, freeFastbin,
    h.fastBins, hIndex]

/-- A pointer behind `big_chunks` is sent to `__free_big`, which leaves the slots alone. -/
theorem free_big (h : Globals start mm) (m : Memory) {ptr : Nat} (hPtr : bigStart start < ptr) :
    free mm m ptr = ({ mm with mappedHeap := (freeBig mm.mappedHeap m ptr).1 },
      (freeBig mm.mappedHeap m ptr).2) := by
  rw [free, h.bigChunks, if_neg (by omega)]

/-! ## Slots and live blocks -/

namespace HeapSystem

/-- A live block begins at `p`. -/
def LiveAt (s : HeapSystem ι) (p : Nat) : Prop := ∃ e ∈ s.live, e.2.ptr = p

/-- A big chunk is handed out at or above `big_chunks`, and the pointer to its data does not
wrap. -/
def BigAbove (start : Nat) (s : HeapSystem ι) (x : ι × Call) : Prop :=
  ∀ size, x.2 = .malloc size → fastbinThreshold < size →
    ∀ fuel p, place fuel s.mm.mappedHeap (s.mem x.1) (reqSize size) = some p →
      bigStart start ≤ headerAddress (s.mem x.1) p ∧
        headerAddress (s.mem x.1) p + sizeofBigChunk < 4294967296

end HeapSystem

/-- The block came from the slot `i`. -/
def FromSlot (start : Nat) (b : Block) (i : Nat) : Prop :=
  b.size ≤ fastbinThreshold ∧ i < 100 ∧ b.ptr = start + 64 * i

/-- Two blocks that begin at one address are both big. -/
def SmallDistinct (e e' : ι × Block) : Prop :=
  e.2.ptr = e'.2.ptr → fastbinThreshold < e.2.size ∧ fastbinThreshold < e'.2.size

instance : Std.Symm (SmallDistinct (ι := ι)) where
  symm _ _ h hEq := (h hEq.symm).symm

/-- What is kept by every run: each block lies where its allocator puts it, and the slots that are
taken are those of the live blocks. -/
structure Slotted (start : Nat) (s : HeapSystem ι) : Prop where
  globals : Globals start s.mm
  slot : ∀ i < 100, s.mm.fastBin.chunks i ≠ 0 ↔ s.LiveAt (start + 64 * i)
  origin : ∀ e ∈ s.live, (∃ i, FromSlot start e.2 i) ∨
    fastbinThreshold < e.2.size ∧ bigStart start < e.2.ptr
  distinct : s.live.Pairwise SmallDistinct

namespace Slotted

variable {e e' : ι × Block}

theorem fromSlot (h : Slotted start s) (he : e ∈ s.live) (hSmall : e.2.size ≤ fastbinThreshold) :
    ∃ i, FromSlot start e.2 i := by
  rcases h.origin e he with hSlot | ⟨hBig, -⟩
  · exact hSlot
  · exact absurd hSmall (Nat.not_le.mpr hBig)

theorem above (h : Slotted start s) (he : e ∈ s.live) (hBig : fastbinThreshold < e.2.size) :
    bigStart start < e.2.ptr := by
  rcases h.origin e he with ⟨i, hSmall, -⟩ | ⟨-, hAbove⟩
  · exact absurd hSmall (Nat.not_le.mpr hBig)
  · exact hAbove

/-- Only one live block begins at the address of a slot. -/
theorem unique (h : Slotted start s) (he : e ∈ s.live) (he' : e' ∈ s.live)
    (hSmall : e.2.size ≤ fastbinThreshold) (hPtr : e'.2.ptr = e.2.ptr) : e' = e := by
  by_contra hne
  have hBig := h.distinct.forall he' he hne hPtr
  exact absurd hSmall (Nat.not_le.mpr hBig.2)

/-- A block taken from a free slot. -/
theorem cons_small (h : Slotted start s) {i : Nat} {b : Block} {d : ι}
    (hFrom : FromSlot start b i) (hPos : 0 < start) (hFree : s.mm.fastBin.chunks i = 0)
    (mem : ι → Memory) :
    Slotted start ⟨setSlot s.mm i (start + 64 * i), mem, (d, b) :: s.live⟩ where
  globals := h.globals.setSlot _ _
  slot j hj := by
    obtain ⟨-, -, hPtr⟩ := hFrom
    rw [setSlot_chunks]
    by_cases hji : j = i
    · subst hji
      rw [Function.update_self]
      exact ⟨fun _ => ⟨(d, b), List.mem_cons_self, hPtr⟩, fun _ => by omega⟩
    · rw [Function.update_of_ne hji, h.slot j hj]
      constructor
      · rintro ⟨e, he, hEq⟩
        exact ⟨e, List.mem_cons_of_mem _ he, hEq⟩
      · rintro ⟨e, he, hEq⟩
        rcases List.mem_cons.mp he with rfl | hOld
        · exact absurd (hPtr.symm.trans hEq) (by omega)
        · exact ⟨e, hOld, hEq⟩
  origin e he := by
    rcases List.mem_cons.mp he with rfl | hOld
    · exact Or.inl ⟨i, hFrom⟩
    · exact h.origin e hOld
  distinct := by
    apply List.pairwise_cons.mpr ⟨?_, h.distinct⟩
    intro e he hEq
    have hLive : s.LiveAt (start + 64 * i) := ⟨e, he, hEq.symm.trans hFrom.2.2⟩
    exact absurd hFree ((h.slot i hFrom.2.1).mpr hLive)

/-- A block taken from above `big_chunks`. -/
theorem cons_big (h : Slotted start s) {b : Block} {d : ι} (hBig : fastbinThreshold < b.size)
    (hAbove : bigStart start < b.ptr) : Slotted start { s with live := (d, b) :: s.live } where
  globals := h.globals
  slot j hj := by
    rw [h.slot j hj]
    constructor
    · rintro ⟨e, he, hEq⟩
      exact ⟨e, List.mem_cons_of_mem _ he, hEq⟩
    · rintro ⟨e, he, hEq⟩
      rcases List.mem_cons.mp he with rfl | hOld
      · unfold bigStart at hAbove
        dsimp only at hEq
        omega
      · exact ⟨e, hOld, hEq⟩
  origin e he := by
    rcases List.mem_cons.mp he with rfl | hOld
    · exact Or.inr ⟨hBig, hAbove⟩
    · exact h.origin e hOld
  distinct := by
    apply List.pairwise_cons.mpr ⟨?_, h.distinct⟩
    intro e he hEq
    refine ⟨hBig, ?_⟩
    by_contra hSmall
    obtain ⟨i, -, hi, hPtr⟩ := h.fromSlot he (Nat.not_lt.mp hSmall)
    unfold bigStart at hAbove
    dsimp only at hEq
    omega

/-- Nothing but the memory and `allocated_chunks` changes. -/
theorem congr (h : Slotted start s) (hGlobals : Globals start t.mm)
    (hChunks : t.mm.fastBin.chunks = s.mm.fastBin.chunks) (hLive : t.live = s.live) :
    Slotted start t where
  globals := hGlobals
  slot i hi := by
    rw [hChunks, h.slot i hi, LiveAt, LiveAt, hLive]
  origin := by
    rw [hLive]
    exact h.origin
  distinct := by
    rw [hLive]
    exact h.distinct

/-- What `free` leaves of the blocks. -/
theorem filter (h : Slotted start s) (p : ι × Block → Bool) (hGlobals : Globals start t.mm)
    (hLive : t.live = s.live.filter p)
    (hSlot : ∀ i < 100, t.mm.fastBin.chunks i ≠ 0 ↔ t.LiveAt (start + 64 * i)) :
    Slotted start t where
  globals := hGlobals
  slot := hSlot
  origin e he := by
    rw [hLive] at he
    exact h.origin e (List.mem_filter.mp he).1
  distinct := by
    rw [hLive]
    exact h.distinct.filter p

end Slotted

/-! ## Calls -/

section Calls

variable [DecidableEq ι] {d : ι} {fuel ptr : Nat}

theorem slotted_malloc (h : Slotted start s) (hPos : 0 < start) {size : Nat}
    (hAbove : BigAbove start s (d, .malloc size)) (hCall : s.call fuel d (.malloc size) = some t) :
    Slotted start t := by
  obtain ⟨r, hMalloc, rfl⟩ := Option.map_eq_some_iff.mp hCall
  unfold malloc at hMalloc
  split_ifs at hMalloc with hZero hSmall
  · cases hMalloc
    exact h.congr h.globals rfl rfl
  · cases hMalloc
    rcases mallocFastbin_spec h.globals with ⟨i, hi, hFree, -, hTake⟩ | ⟨-, hFull⟩
    · rw [hTake]
      have hne : start + 64 * i ≠ 0 := by omega
      simp only [hne, if_false]
      exact h.cons_small ⟨hSmall, hi, rfl⟩ hPos hFree _
    · rw [hFull]
      exact h.congr h.globals rfl rfl
  · obtain ⟨r', hBig, rfl⟩ := Option.map_eq_some_iff.mp hMalloc
    obtain ⟨p, hPlace, hPtr, hHeap, -⟩ := mallocBig_eq_some hBig
    obtain ⟨hLow, hHigh⟩ := hAbove size rfl (Nat.not_le.mp hSmall) fuel p hPlace
    rw [putChunk_fst, ptrAdvance_of_lt hHigh] at hPtr
    have hAddr : bigStart start < r'.1 := by
      unfold sizeofBigChunk at hPtr
      omega
    have hGlobals : Globals start { s.mm with mappedHeap := r'.2.1 } := by
      rw [hHeap]
      split_ifs
      · exact h.globals.setAllocated _
      · exact h.globals
    have hne : r'.1 ≠ 0 := Nat.ne_zero_of_lt hAddr
    simp only [hne, if_false]
    have hMid : Slotted start
        ⟨{ s.mm with mappedHeap := r'.2.1 }, Function.update s.mem d r'.2.2, s.live⟩ :=
      h.congr hGlobals rfl rfl
    exact hMid.cons_big (Nat.not_le.mp hSmall) hAddr

theorem slotted_free (h : Slotted start s) (hLegal : s.Legal d (.free ptr))
    (hCall : s.call fuel d (.free ptr) = some t) : Slotted start t := by
  obtain ⟨b, hb, rfl⟩ := hLegal
  have hMem : (d, b) ∈ s.live := mem_blocksIn.mp hb
  cases hCall
  rcases h.origin _ hMem with ⟨i, hSmall, hi, hPtr⟩ | ⟨hBig, hAbove⟩
  · rw [hPtr, free_slot h.globals _ hi]
    refine h.filter _ (h.globals.setSlot _ _) rfl ?_
    intro j hj
    rw [setSlot_chunks]
    by_cases hji : j = i
    · subst hji
      rw [Function.update_self]
      refine ⟨fun hne => absurd rfl hne, ?_⟩
      rintro ⟨e, he, hEq⟩
      obtain ⟨hOld, hKept⟩ := List.mem_filter.mp he
      rw [h.unique hMem hOld hSmall (hEq.trans hPtr.symm)] at hKept
      simp only [not_and, decide_eq_true_eq] at hKept
      exact absurd hPtr (hKept trivial)
    · rw [Function.update_of_ne hji, h.slot j hj]
      constructor
      · rintro ⟨e, he, hEq⟩
        refine ⟨e, List.mem_filter.mpr ⟨he, ?_⟩, hEq⟩
        simp only [hEq, decide_eq_true_eq]
        omega
      · rintro ⟨e, he, hEq⟩
        exact ⟨e, (List.mem_filter.mp he).1, hEq⟩
  · rw [free_big h.globals _ hAbove]
    refine h.filter _ (h.globals.setAllocated _) rfl ?_
    intro j hj
    rw [h.slot j hj]
    constructor
    · rintro ⟨e, he, hEq⟩
      refine ⟨e, List.mem_filter.mpr ⟨he, ?_⟩, hEq⟩
      unfold bigStart at hAbove
      dsimp only at hAbove
      simp only [hEq, decide_eq_true_eq]
      omega
    · rintro ⟨e, he, hEq⟩
      exact ⟨e, (List.mem_filter.mp he).1, hEq⟩

theorem slotted_step (h : Slotted start s) (hPos : 0 < start) {x : ι × Call}
    (hAbove : BigAbove start s x) (hStep : Step s x t) : Slotted start t := by
  obtain ⟨d, c⟩ := x
  obtain ⟨hLegal, fuel, hCall⟩ := hStep
  cases c with
  | malloc size => exact slotted_malloc h hPos hAbove hCall
  | free ptr => exact slotted_free h hLegal hCall
  | store a v =>
    cases hCall
    exact h.congr h.globals rfl rfl

end Calls

/-! ## Runs -/

/-- `p` is the lowest block of the pool that is not live, or null when all of them are. -/
def LowestFree (start : Nat) (s : HeapSystem ι) (p : Nat) : Prop :=
  (∃ i < 100, p = start + 64 * i ∧ ¬ s.LiveAt (start + 64 * i) ∧
    ∀ j < i, s.LiveAt (start + 64 * j)) ∨
  p = 0 ∧ ∀ i < 100, s.LiveAt (start + 64 * i)

/-- The pool and the routing of `free`, as their callers see them. -/
structure Pooled (start : Nat) (s : HeapSystem ι) : Prop where
  slot : ∀ i < s.mm.fastBin.binSize, s.mm.fastBin.chunks i ≠ 0 ↔ s.LiveAt (start + 64 * i)
  malloc : ∀ d fuel size, 0 < size → size ≤ fastbinThreshold →
    ∃ p mm, malloc fuel s.mm (s.mem d) size = some (p, mm, s.mem d) ∧ LowestFree start s p
  inside : ∀ e ∈ s.live, e.2.size ≤ fastbinThreshold →
    s.mm.mappedHeap.fastBins ≤ e.2.ptr ∧ e.2.ptr + 64 ≤ s.mm.mappedHeap.bigChunks
  disjoint : s.live.Pairwise fun e e' =>
    e.2.size ≤ fastbinThreshold → e'.2.size ≤ fastbinThreshold →
      e.2.ptr + 64 ≤ e'.2.ptr ∨ e'.2.ptr + 64 ≤ e.2.ptr
  free_small : ∀ e ∈ s.live, e.2.size ≤ fastbinThreshold → ∃ i < s.mm.fastBin.binSize,
    e.2.ptr = start + 64 * i ∧ ∀ m, free s.mm m e.2.ptr = (setSlot s.mm i 0, m)
  free_big : ∀ e ∈ s.live, fastbinThreshold < e.2.size → ∀ m,
    free s.mm m e.2.ptr = ({ s.mm with mappedHeap := (freeBig s.mm.mappedHeap m e.2.ptr).1 },
      (freeBig s.mm.mappedHeap m e.2.ptr).2)

theorem Slotted.lowestFree (h : Slotted start s) : LowestFree start s (mallocFastbin s.mm).1 := by
  rcases mallocFastbin_spec h.globals with ⟨i, hi, hFree, hBelow, hTake⟩ | ⟨hAll, hFull⟩
  · left
    rw [hTake]
    refine ⟨i, hi, rfl, ?_, ?_⟩
    · intro hLive
      exact (h.slot i hi).mpr hLive hFree
    · intro j hj
      exact (h.slot j (hj.trans hi)).mp (hBelow j hj)
  · right
    rw [hFull]
    exact ⟨rfl, fun i hi => (h.slot i hi).mp (hAll i hi)⟩

/-- To operator `new` of the queue's nodes, the pool is the source `NodeSource.fastbins`. -/
theorem Slotted.mallocFastbin_eq (h : Slotted start s) : (mallocFastbin s.mm).1 =
    (NodeSource.fastbins start 100).new (s.live.map fun e => e.2.ptr) := by
  have hLive (i : Nat) :
      start + 64 * i ∈ (s.live.map fun e => e.2.ptr) ↔ s.LiveAt (start + 64 * i) := List.mem_map
  unfold NodeSource.fastbins
  rcases h.lowestFree with ⟨i, hi, hPtr, hFree, hBelow⟩ | ⟨hNull, hAll⟩
  · have hFind : firstFree (fun i => start + 64 * i ∈ s.live.map fun e => e.2.ptr) 100 =
        some i := by
      apply List.find?_range_eq_some.mpr
      refine ⟨by simpa [hLive] using hFree, List.mem_range.mpr hi, ?_⟩
      intro j hj
      simpa [hLive] using hBelow j hj
    rw [hPtr]
    simp only [hFind]
    rfl
  · have hFind : firstFree (fun i => start + 64 * i ∈ s.live.map fun e => e.2.ptr) 100 = none := by
      apply List.find?_eq_none.mpr
      intro i hi
      simpa [hLive] using hAll i (List.mem_range.mp hi)
    rw [hNull]
    simp only [hFind]
    rfl

theorem Slotted.pooled (h : Slotted start s) : Pooled start s where
  slot := by
    rw [h.globals.binSize]
    exact h.slot
  malloc d fuel size hPos hSmall := by
    refine ⟨_, (mallocFastbin s.mm).2, ?_, h.lowestFree⟩
    rw [Kmm.malloc, if_neg (Nat.ne_of_gt hPos), if_pos hSmall]
  inside e he hSmall := by
    obtain ⟨i, -, hi, hPtr⟩ := h.fromSlot he hSmall
    rw [h.globals.fastBins, h.globals.bigChunks, hPtr]
    unfold bigStart
    omega
  disjoint := by
    apply h.distinct.imp_of_mem
    intro e e' he he' hDistinct hSmall hSmall'
    obtain ⟨i, -, -, hPtr⟩ := h.fromSlot he hSmall
    obtain ⟨j, -, -, hPtr'⟩ := h.fromSlot he' hSmall'
    have hne : e.2.ptr ≠ e'.2.ptr := fun hEq => absurd (hDistinct hEq).1 (Nat.not_lt.mpr hSmall)
    omega
  free_small e he hSmall := by
    obtain ⟨i, -, hi, hPtr⟩ := h.fromSlot he hSmall
    refine ⟨i, by rwa [h.globals.binSize], hPtr, ?_⟩
    intro m
    rw [hPtr]
    exact free_slot h.globals m hi
  free_big e he hBig m := Kmm.free_big h.globals m (h.above he hBig)

theorem slotted_boot {mem : ι → Memory} (hGlobals : Globals start mm)
    (hChunks : ∀ i, mm.fastBin.chunks i = 0) : Slotted start (boot mm mem) where
  globals := hGlobals
  slot i _ := by
    constructor
    · exact fun hne => absurd (hChunks i) hne
    · rintro ⟨e, he, -⟩
      cases he
  origin e he := nomatch he
  distinct := .nil

theorem chunks_eq_zero
    (hInit : memoryManagerInitialize start stop max isKernel rw = some mm) (i : Nat) :
    mm.fastBin.chunks i = 0 := by
  unfold memoryManagerInitialize at hInit
  split at hInit
  · cases hInit
    rfl
  · cases hInit

/-- In every run in which big chunks stay above `big_chunks`, the pool and the routing are right. -/
theorem pooled_of_run [DecidableEq ι] {mem : ι → Memory} {xs : List (ι × Call)}
    (hInit : memoryManagerInitialize start stop max isKernel rw = some mm) (hPos : 0 < start)
    (hRegion : start + 6813 ≤ stop) (hStop : stop < 4294967296)
    (hRun : Run (Guarded Step (BigAbove start)) (boot mm mem) xs t) : Pooled start t := by
  obtain ⟨hGlobals, -, -⟩ := globals_of_initialize hInit hRegion hStop
  have hSlotted : Slotted start t := by
    apply hRun.invariant (I := Slotted start)
    · exact slotted_boot hGlobals fun i => chunks_eq_zero hInit i
    · intro s x t h hStep
      exact slotted_step h hPos hStep.1 hStep.2
  exact hSlotted.pooled

/-- Decides `BigAbove`. -/
def aboveNow (fuel start : Nat) (s : HeapSystem ι) (x : ι × Call) : Bool :=
  s.placementIs fuel (fun m _ p => bigStart start ≤ headerAddress m p ∧
    headerAddress m p + sizeofBigChunk < 4294967296) x.1 x.2

theorem bigAbove_of_aboveNow {fuel : Nat} {x : ι × Call} (h : aboveNow fuel start s x = true) :
    BigAbove start s x := by
  obtain ⟨d, c⟩ := x
  rintro size rfl hBig fuel' p hPlace
  exact of_decide_eq_true ((placement_of_is h hBig).2 fuel' p hPlace)

theorem pooled_of_run_kernel : ∃ t, kernelHeap (aboveNow 8 0xC0000000)
    [.malloc 20, .malloc 100, .malloc 64, .free 0xC0000000, .free 0xC0001A9D, .malloc 1] = some t ∧
      Pooled 0xC0000000 t := by
  have hSome : (kernelHeap (aboveNow 8 0xC0000000) [.malloc 20, .malloc 100, .malloc 64,
      .free 0xC0000000, .free 0xC0001A9D, .malloc 1]).isSome := by
    decide +kernel
  obtain ⟨t, ht⟩ := Option.isSome_iff_exists.mp hSome
  obtain ⟨mm, hInit, hRun⟩ := run_of_kernelHeap (fun _ _ => bigAbove_of_aboveNow) ht
  exact ⟨t, ht, pooled_of_run hInit (by decide) (by decide) (by decide) hRun⟩

end Juos.Kmm
