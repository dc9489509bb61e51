import Juos.Kmm.BestFit
import Juos.Kmm.Requests

/-!
# What reusing a free chunk leaves

A free chunk that is taken should be split when what is left over has room for another chunk, and
keep its size otherwise. The test compares the request with itself, so it only succeeds for the
requests that wrapped; all others keep the whole chunk and get a `size` counted in headers. Neither
path leaves what it should: `not_holeReused`.
-/

namespace Juos.Kmm

open Machine HeapSystem

variable {m m' : Memory} {c d fuel req asked start stop max : Nat} {isKernel rw : Bool}
  {cs : List Nat} {mm₀ mm : MemoryManager}

/-- The free chunk `c` with the successor `d` became a used chunk of `req` bytes and a free one of
what was left over. The other headers are as they were. -/
structure SplitOff (m m' : Memory) (req : Nat) (cs : List Nat) (c d : Nat) : Prop where
  taken : chunkAt m' c = ⟨prev m c, c + req, req, true⟩
  rest : chunkAt m' (c + req) = ⟨c, d, d - c - req, false⟩
  behind : chunkAt m' d = { chunkAt m d with prev := c + req }
  others : ∀ x ∈ cs, x ≠ c → x ≠ d → chunkAt m' x = chunkAt m x

/-- The free chunk `c` with the successor `d` is used and still reaches up to `d`. -/
structure KeptWhole (m m' : Memory) (cs : List Nat) (c d : Nat) : Prop where
  taken : chunkAt m' c = ⟨prev m c, d, d - c, true⟩
  others : ∀ x ∈ cs, x ≠ c → chunkAt m' x = chunkAt m x

/-- The free chunk `c` was taken for `req` bytes, and split if more than `BIGCHUNK_MIN_SPACE` bytes
were left over. -/
def HoleReused (m m' : Memory) (req : Nat) (cs : List Nat) (c : Nat) : Prop :=
  if bigchunkMinSpace < next m c - c - req then SplitOff m m' req cs c (next m c)
  else KeptWhole m m' cs c (next m c)

theorem HoleReused.used_eq (h : HoleReused m m' req cs c) : used m' c = true := by
  unfold HoleReused at h
  split at h
  · exact used_of_chunkAt h.taken
  · exact used_of_chunkAt h.taken

/-! ## The branch without a split -/

/-- No extent is one more than what `size` is set to, the extent divided by 13. -/
theorem chunkDiff_sub_one_ne (c d : Nat) (hLe : c ≤ d) (hd : d < 4294967296) :
    ptrSub (chunkDiff d c) 1 ≠ d - c := by
  unfold chunkDiff
  rw [ptrSub_of_le hLe hd]
  unfold ptrSub
  omega

theorem not_holeReused_of_large (hMin : bigchunkMinSpace ≤ req) (hReq : req < 4294967296)
    (hLe : c + req ≤ next m c) : ¬ HoleReused m (reuseHole m req c) req cs c := by
  have hd : next m c < 4294967296 := load32_lt _ _
  have hNext' : next (setUsed m c true) c = next m c := by
    rw [next_of_chunkAt (chunkAt_setUsed m c true)]
    rfl
  have hAt : chunkAt (reuseHole m req c) c =
      { chunkAt m c with size := ptrSub (chunkDiff (next m c) c) 1, used := true } := by
    have hLt : ptrSub (chunkDiff (next m c) c) 1 < 4294967296 := Nat.mod_lt _ (by omega)
    rw [reuseHole_eq hMin hReq, chunkAt_setSize, chunkAt_setUsed, hNext', Nat.mod_eq_of_lt hLt]
  intro h
  unfold HoleReused at h
  split at h
  · -- the successor would have to be the new chunk
    rename_i hSplit
    have hNext : next (reuseHole m req c) c = c + req := next_of_chunkAt h.taken
    rw [next_of_chunkAt hAt] at hNext
    change next m c = c + req at hNext
    omega
  · have hSize : size (reuseHole m req c) c = next m c - c := size_of_chunkAt h.taken
    rw [size_of_chunkAt hAt] at hSize
    exact chunkDiff_sub_one_ne c (next m c) (by omega) hd hSize

/-! ## The branch with a split -/

theorem splits_of_small (hSmall : req < bigchunkMinSpace) :
    req < ptrSub req bigchunkMinSpace := by
  unfold ptrSub
  unfold bigchunkMinSpace sizeofBigChunk fastbinThreshold at *
  omega

/-- The memory before the new chunk is linked in. -/
def cutOff (m : Memory) (req c : Nat) : Memory :=
  let m := clearChunk (setUsed m c true) (c + req)
  setSize m (c + req) (ptrSub (ptrSub (next m c) c) req)

theorem reuseHole_of_small (hSmall : req < bigchunkMinSpace) (hFits : c + req < 4294967296) :
    reuseHole m req c =
      setNext (setPrev (setPrev (setNext (cutOff m req c) c (c + req))
        (next (cutOff m req c) c) (c + req)) (c + req) c) (c + req) (next (cutOff m req c) c) := by
  unfold reuseHole
  rw [if_pos (splits_of_small hSmall), ptrAdvance_of_lt hFits]
  rfl

/-- For a request of no bytes the new chunk is the old one, and its header is cleared. -/
theorem used_reuseHole_zero (hc : 13 ≤ c) (hFits : c + 13 ≤ 4294967296) :
    used (reuseHole m 0 c) c = false := by
  have hZero : Apart 0 13 c 13 := apart_of_le (by omega) hFits
  have hCut : chunkAt (cutOff m 0 c) c = ⟨0, 0, size (cutOff m 0 c) c, false⟩ := by
    unfold cutOff
    rw [Nat.add_zero, chunkAt_setSize, chunkAt_clearChunk, size_of_chunkAt (chunkAt_setSize _ _ _)]
  apply used_of_chunkAt (k := ⟨c % 4294967296, 0, size (cutOff m 0 c) c, false⟩)
  rw [reuseHole_of_small (by decide) (by omega), next_of_chunkAt hCut, Nat.add_zero,
    chunkAt_setNext, chunkAt_setPrev, chunkAt_congr (sameOn_setPrev _ hZero), chunkAt_setNext, hCut]
  rfl

/-- The header that is written at `c + req` does not reach the link at `c`. -/
theorem next_cutOff (hMin : 8 ≤ req) (hFits : c + req + 13 ≤ 4294967296) :
    next (cutOff m req c) c = next m c := by
  have hApart {k n : Nat} (hk : c + req ≤ k) (hn : k + n ≤ 4294967296) : Apart k n (c + 4) 4 :=
    apart_of_ge (by omega) hn
  have hLink : next (setUsed m c true) c = next m c := next_of_chunkAt (chunkAt_setUsed m c true)
  unfold cutOff setSize clearChunk
  unfold next at *
  rw [load32_store32_of_apart _ _ (hApart (by omega) (by omega)),
    load32_congr (sameOn_fill _ 0 (hApart (by omega) (by omega))), hLink]

theorem next_reuseHole_of_small (hMin : 8 ≤ req) (hSmall : req < bigchunkMinSpace)
    (hLe : c + req ≤ next m c) (hGap : c + 13 ≤ next m c) (hFits : next m c + 13 ≤ 4294967296) :
    next (reuseHole m req c) c = c + req := by
  have hBehind {k : Nat} (hk : c + 8 ≤ k) (hn : k + 4 ≤ 4294967296) : Apart k 4 (c + 4) 4 :=
    apart_of_ge (by omega) hn
  rw [reuseHole_of_small hSmall (by omega), next_cutOff hMin (by omega)]
  unfold next at hLe hGap hFits
  unfold setPrev setNext next
  rw [load32_store32_of_apart _ _ (hBehind (by omega) (by omega)),
    load32_store32_of_apart _ _ (hBehind (by omega) (by omega)),
    load32_store32_of_apart _ _ (hBehind (by omega) (by omega)), load32_store32_of_lt _ (by omega)]

/-- The new chunk leads on to the old successor. -/
theorem next_reuseHole_new (hMin : 8 ≤ req) (hSmall : req < bigchunkMinSpace)
    (hFits : c + req + 13 ≤ 4294967296) : next (reuseHole m req c) (c + req) = next m c := by
  rw [reuseHole_of_small hSmall (by omega), next_cutOff hMin hFits]
  exact load32_store32_of_lt _ (load32_lt _ _)

theorem size_reuseHole_of_small (hMin : 13 ≤ req) (hSmall : req < bigchunkMinSpace)
    (hLe : c + req ≤ next m c) (hFits : next m c + 13 ≤ 4294967296) :
    size (reuseHole m req c) c = size m c := by
  have hNew : Apart (c + req) 13 c 13 := apart_of_ge (by omega) (by omega)
  have hNext : Apart (next m c) 13 c 13 := apart_of_ge (by omega) hFits
  have hCut : chunkAt (cutOff m req c) c = { chunkAt m c with used := true } := by
    unfold cutOff
    rw [chunkAt_congr (sameOn_setSize _ hNew), chunkAt_congr (sameOn_clearChunk hNew),
      chunkAt_setUsed]
  apply size_of_chunkAt
    (k := { chunkAt m c with next := (c + req) % 4294967296, used := true })
  rw [reuseHole_of_small hSmall (by omega), next_cutOff (by omega) (by omega),
    chunkAt_congr (sameOn_setNext _ hNew), chunkAt_congr (sameOn_setPrev _ hNew),
    chunkAt_congr (sameOn_setPrev _ hNext), chunkAt_setNext, hCut]

/-- The new chunk of a split is where the old successor should be if nothing was to be split off,
and otherwise the size of the old chunk is not reduced. -/
theorem not_holeReused_of_small (hReq : req = 0 ∨ req = 8 ∨ req = 16) (hc : 13 ≤ c)
    (hLe : c + req ≤ next m c) (hGap : c + 13 ≤ next m c) (hFits : next m c + 13 ≤ 4294967296)
    (hSize : size m c = next m c - c) (hMem : next m c ∈ cs)
    (hNoLoop : next m (next m c) ≠ next m c) : ¬ HoleReused m (reuseHole m req c) req cs c := by
  intro h
  rcases hReq with rfl | hReq
  · have hUsed := h.used_eq
    rw [used_reuseHole_zero hc (by omega)] at hUsed
    cases hUsed
  · have hSmall : req < bigchunkMinSpace := by
      unfold bigchunkMinSpace sizeofBigChunk fastbinThreshold
      omega
    have hNext := next_reuseHole_of_small (by omega) hSmall hLe hGap hFits
    unfold HoleReused at h
    split at h
    · rename_i hSplit
      have hTaken : size (reuseHole m req c) c = req := size_of_chunkAt h.taken
      rcases hReq with rfl | rfl
      · -- the `size` of the old chunk is the `prev` of the new one
        have hBack : prev (reuseHole m 8 c) (c + 8) = c := prev_of_chunkAt h.rest
        change size (reuseHole m 8 c) c = c at hBack
        omega
      · rw [size_reuseHole_of_small (by omega) hSmall hLe hFits] at hTaken
        unfold bigchunkMinSpace sizeofBigChunk fastbinThreshold at hSplit
        omega
    · -- the old chunk can only lead to its successor if the new one lies there, and that is a loop
      have hSame : c + req = next m c := hNext.symm.trans (next_of_chunkAt h.taken)
      have hNew := next_reuseHole_new (m := m) (c := c) (by omega) hSmall (by omega)
      rw [hSame, next_of_chunkAt (h.others _ hMem (by omega))] at hNew
      exact hNoLoop hNew

/-! ## The heap -/

/-- The region begins at a page, so no chunk lies at the bottom of the address space. -/
theorem bigChunks_initialize (hStart : start < 4294967296)
    (hInit : memoryManagerInitialize start stop max isKernel rw = some mm) :
    2704 ≤ mm.mappedHeap.bigChunks := by
  unfold memoryManagerInitialize at hInit
  split at hInit
  · rename_i hAligned
    cases hInit
    change 2704 ≤ ptrAdvance start (ptrSub (ptrAdvance start 6800) start)
    unfold ptrAdvance ptrSub
    omega
  · cases hInit

theorem WellFormed.head_le (h : WellFormed m d cs) (hc : c ∈ cs) : d ≤ c := by
  have hHead := h.head_eq
  have hSorted := h.chunks.sorted
  cases cs with
  | nil => cases hc
  | cons e cs =>
    obtain rfl : e = d := by simpa using hHead
    rcases List.mem_cons.mp hc with rfl | hRest
    · exact le_rfl
    · have := (List.pairwise_cons.mp hSorted).1 c hRest
      omega

/-- A chunk with a successor reaches up to it, and the successor does not lead to itself. -/
theorem WellFormed.hole (h : WellFormed m d cs) (hc : c ∈ cs) (hNext : next m c ≠ 0) :
    next m c ∈ cs ∧ c + 13 ≤ next m c ∧ size m c = next m c - c ∧
      next m (next m c) ≠ next m c := by
  obtain ⟨hMem, hGap⟩ := h.chunks.next_mem hc hNext
  have hSize : size m c = next m c - c := by
    obtain ⟨pre, post, rfl⟩ := List.append_of_mem hc
    cases post with
    | nil => exact absurd (by simpa using h.chunks.next_of_split) hNext
    | cons n post =>
      obtain ⟨hEq, hExtent⟩ := h.extent
      omega
  refine ⟨hMem, hGap, hSize, ?_⟩
  intro hLoop
  have hLater : next m (next m c) ≠ 0 := by rwa [hLoop]
  have hGap := (h.chunks.next_mem hMem hLater).2
  omega

theorem found_of_place {h : Heap} (hForm : WellFormed m h.bigChunks cs)
    (hPlace : place fuel h m req = some (.hole c)) :
    c ∈ cs ∧ next m c ≠ 0 ∧ req ≤ next m c - c := by
  have hHead := hForm.head_eq
  unfold place at hPlace
  split at hPlace
  · cases hPlace
  · cases cs with
    | nil => cases hHead
    | cons e cs =>
      obtain rfl : e = h.bigChunks := by simpa using hHead
      have hSplit : Chunks m ([] ++ h.bigChunks :: cs) := hForm.chunks
      obtain ⟨hc, hNext, -, hReq⟩ := searchHole_spec hSplit hPlace
      exact ⟨hc, hNext, hReq⟩

/-- When the search stops at a free chunk, `malloc` returns with that chunk reused. -/
theorem malloc_hole (hBig : fastbinThreshold < asked)
    (hPlace : place fuel mm.mappedHeap m (reqSize asked) = some (.hole c)) :
    ∃ r, malloc fuel mm m asked = some r ∧ r.2.2 = reuseHole m (reqSize asked) c := by
  rw [malloc_big fuel mm m hBig, mallocBig, hPlace, Option.map_some, Option.map_some, putChunk]
  refine ⟨_, rfl, ?_⟩
  dsimp only

/-- On a heap that is well formed, no request that reuses a free chunk leaves what it should. -/
theorem not_holeReused (hStart : start < 4294967296)
    (hInit : memoryManagerInitialize start stop max isKernel rw = some mm₀)
    (hHead : mm.mappedHeap.bigChunks = mm₀.mappedHeap.bigChunks)
    (hForm : WellFormed m mm.mappedHeap.bigChunks cs) (hBig : fastbinThreshold < asked)
    (hAsked : asked < 4294967296)
    (hPlace : place fuel mm.mappedHeap m (reqSize asked) = some (.hole c)) :
    ∃ r, malloc fuel mm m asked = some r ∧ ¬ HoleReused m r.2.2 (reqSize asked) cs c := by
  obtain ⟨hc, hNext, hReq⟩ := found_of_place hForm hPlace
  obtain ⟨hMem, hGap, hSize, hNoLoop⟩ := hForm.hole hc hNext
  have hFits := hForm.fits _ hMem
  obtain ⟨r, hRun, hAfter⟩ := malloc_hole hBig hPlace
  refine ⟨r, hRun, ?_⟩
  rw [hAfter]
  rcases reqSize_cases hBig hAsked with hLarge | hSmall
  · have hMin : bigchunkMinSpace ≤ reqSize asked := by
      unfold bigchunkMinSpace sizeofBigChunk fastbinThreshold
      omega
    exact not_holeReused_of_large hMin (reqSize_lt asked) (by omega)
  · have hLow : 13 ≤ c := by
      have hFirst := bigChunks_initialize hStart hInit
      have hLe := hForm.head_le hc
      omega
    exact not_holeReused_of_small hSmall hLow (by omega) hGap hFits hSize hMem hNoLoop

/-! ## A free chunk that is three times as large as asked for -/

/-- A chunk of 312 bytes, freed again, before a used one. -/
theorem kernelHeap_free_first : ∃ t, kernelHeap (fitsNow 8 0xC1000000)
      [.malloc 299, .malloc 88, .free 0xC0001A9D] = some t ∧
    t.mm.mappedHeap.bigChunks = 0xC0001A90 ∧ t.mm.mappedHeap.allocatedChunks = 1 ∧
    chunkAt (t.mem ()) 0xC0001A90 = ⟨0, 0xC0001BC8, 312, false⟩ ∧
    chunkAt (t.mem ()) 0xC0001BC8 = ⟨0xC0001A90, 0, 104, true⟩ := by
  have hEnd : (kernelHeap (fitsNow 8 0xC1000000)
      [.malloc 299, .malloc 88, .free 0xC0001A9D]).map
        (fun t => (t.mm.mappedHeap.bigChunks, t.mm.mappedHeap.allocatedChunks,
          chunkAt (t.mem ()) 0xC0001A90, chunkAt (t.mem ()) 0xC0001BC8)) =
      some (0xC0001A90, 1, ⟨0, 0xC0001BC8, 312, false⟩, ⟨0xC0001A90, 0, 104, true⟩) := by
    decide +kernel
  obtain ⟨t, ht, hEq⟩ := Option.map_eq_some_iff.mp hEnd
  simp only [Prod.mk.injEq] at hEq
  exact ⟨t, ht, hEq⟩

theorem place_free_first {h : Heap} (hHead : h.bigChunks = 0xC0001A90)
    (hCount : h.allocatedChunks = 1) (hFirst : chunkAt m 0xC0001A90 = ⟨0, 0xC0001BC8, 312, false⟩) :
    place 2 h m (reqSize 88) = some (.hole 0xC0001A90) := by
  have hReq : reqSize 88 = 104 := by decide
  have hNext : next m 0xC0001A90 = 0xC0001BC8 := next_of_chunkAt hFirst
  have hUsed : used m 0xC0001A90 = false := used_of_chunkAt hFirst
  rw [place, if_neg (by omega), hHead, hReq]
  simp [searchHole, hNext, hUsed, ptrSub]

theorem not_holeReused_free_first : ∃ t mm₀ r, kernelHeap (fitsNow 8 0xC1000000)
      [.malloc 299, .malloc 88, .free 0xC0001A9D] = some t ∧
    memoryManagerInitialize 0xC0000000 0xC1000000 0xCFFFF000 true true = some mm₀ ∧
    malloc 2 t.mm (t.mem ()) 88 = some r ∧
    ¬ HoleReused (t.mem ()) r.2.2 (reqSize 88) [0xC0001A90, 0xC0001BC8] 0xC0001A90 := by
  obtain ⟨t, ht, hHead, hCount, hFirst, hSecond⟩ := kernelHeap_free_first
  have hForm : WellFormed (t.mem ()) t.mm.mappedHeap.bigChunks [0xC0001A90, 0xC0001BC8] := by
    rw [hHead]
    exact wellFormed_pair hFirst hSecond (by decide) (by decide) (by decide)
  obtain ⟨mm₀, hInit⟩ : ∃ mm₀,
      memoryManagerInitialize 0xC0000000 0xC1000000 0xCFFFF000 true true = some mm₀ := ⟨_, rfl⟩
  have hSame : t.mm.mappedHeap.bigChunks = mm₀.mappedHeap.bigChunks := by
    rw [hHead]
    cases hInit
    rfl
  obtain ⟨r, hRun, hNot⟩ := not_holeReused (by decide) hInit hSame hForm (by decide) (by decide)
    (place_free_first hHead hCount hFirst)
  exact ⟨t, mm₀, r, ht, hInit, hRun, hNot⟩

/-- 208 bytes would be left over, but the chunk is not split and its size becomes 23. -/
theorem size_reused_free_first : ∃ t r, kernelHeap (fitsNow 8 0xC1000000)
      [.malloc 299, .malloc 88, .free 0xC0001A9D] = some t ∧
    WellFormed (t.mem ()) t.mm.mappedHeap.bigChunks [0xC0001A90, 0xC0001BC8] ∧
    place 2 t.mm.mappedHeap (t.mem ()) (reqSize 88) = some (.hole 0xC0001A90) ∧
    malloc 2 t.mm (t.mem ()) 88 = some r ∧
    chunkAt r.2.2 0xC0001A90 = ⟨0, 0xC0001BC8, 23, true⟩ ∧
    ¬ HoleReused (t.mem ()) r.2.2 (reqSize 88) [0xC0001A90, 0xC0001BC8] 0xC0001A90 := by
  obtain ⟨t, ht, hHead, hCount, hFirst, hSecond⟩ := kernelHeap_free_first
  have hForm : WellFormed (t.mem ()) t.mm.mappedHeap.bigChunks [0xC0001A90, 0xC0001BC8] := by
    rw [hHead]
    exact wellFormed_pair hFirst hSecond (by decide) (by decide) (by decide)
  have hPlace := place_free_first hHead hCount hFirst
  have hNext : next (setUsed (t.mem ()) 0xC0001A90 true) 0xC0001A90 = 0xC0001BC8 := by
    rw [next_of_chunkAt (chunkAt_setUsed _ _ _), hFirst]
  have hReq : reqSize 88 = 104 := by decide
  have hAt : chunkAt (reuseHole (t.mem ()) 104 0xC0001A90) 0xC0001A90 =
      ⟨0, 0xC0001BC8, 23, true⟩ := by
    rw [reuseHole_eq (by decide) (by decide), chunkAt_setSize, chunkAt_setUsed, hFirst, hNext]
    decide
  have hNot : ¬ HoleReused (t.mem ()) (reuseHole (t.mem ()) 104 0xC0001A90) 104
      [0xC0001A90, 0xC0001BC8] 0xC0001A90 := by
    apply not_holeReused_of_large (by decide) (by decide)
    rw [next_of_chunkAt hFirst]
    decide
  obtain ⟨r, hRun, hAfter⟩ := malloc_hole (by decide) hPlace
  rw [hReq] at hAfter
  refine ⟨t, r, ht, hForm, hPlace, hRun, ?_, ?_⟩
  · rw [hAfter]
    exact hAt
  · rw [hAfter, hReq]
    exact hNot

end Juos.Kmm
