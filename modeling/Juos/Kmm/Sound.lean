import Juos.Kmm.HeapSystem
import Mathlib.Data.Set.Basic

/-!
# Every call keeps a sound heap sound

`Sound start D s` is the invariant of all runs in the spaces `D` of a heap that begins at `start`.
In each space the chunks and the blocks satisfy `Space`; across the spaces the slots of the fast
bin are held by one block each, and `allocated_chunks` counts the big blocks of all spaces
together.

* `Sound.step`: a call keeps the invariant, whichever space of `D` is loaded, when it meets `Fits`
  and `Placeable`.
* `Sound.safe`, `Sound.returns`: what the invariant is good for.
-/

namespace Juos.Kmm

open Machine

/-- Where the big chunks begin: behind a hundred slots of 68 bytes. -/
abbrev bigStart (start : Nat) : Nat := start + 6800

/-- The globals that no call changes. -/
structure Globals (start : Nat) (mm : MemoryManager) : Prop where
  fastBins : mm.mappedHeap.fastBins = start
  bigChunks : mm.mappedHeap.bigChunks = bigStart start
  binSize : mm.fastBin.binSize = 100
  chunkSize : mm.fastBin.chunkSize = 64
  fits : bigStart start + 13 ≤ 4294967296

theorem Globals.setSlot {start : Nat} {mm : MemoryManager} (h : Globals start mm) (i v : Nat) :
    Globals start (Kmm.setSlot mm i v) :=
  ⟨h.fastBins, h.bigChunks, h.binSize, h.chunkSize, h.fits⟩

theorem Globals.setAllocated {start : Nat} {mm : MemoryManager} (h : Globals start mm) (n : Nat) :
    Globals start { mm with mappedHeap := { mm.mappedHeap with allocatedChunks := n } } :=
  ⟨h.fastBins, h.bigChunks, h.binSize, h.chunkSize, h.fits⟩

structure Sound {ι : Type} [DecidableEq ι] (start : Nat) (D : Set ι) (s : HeapSystem ι) : Prop where
  globals : Globals start s.mm
  space : ∀ d ∈ D, ∃ cs, Space (s.mem d) (bigStart start) (s.liveIn d) cs
  within : ∀ e ∈ s.live, e.1 ∈ D
  slot : ∀ e ∈ s.live, e.2.ptr ≤ bigStart start →
    ∃ i < 100, e.2.ptr = start + 64 * i ∧ e.2.size ≤ 64 ∧ s.mm.fastBin.chunks i ≠ 0
  slots_distinct : s.live.Pairwise fun e e' => e.2.ptr ≤ bigStart start → e.2.ptr ≠ e'.2.ptr
  count : s.mm.mappedHeap.allocatedChunks = s.live.countP fun e => bigStart start < e.2.ptr
  bounded : s.mm.mappedHeap.allocatedChunks < 4294967296

section Blocks

variable {ι : Type} [DecidableEq ι] {d d' : ι} {live : List (ι × Block)} {b : Block}

theorem mem_blocksIn : b ∈ blocksIn live d ↔ (d, b) ∈ live := by
  unfold blocksIn
  rw [List.mem_map]
  constructor
  · rintro ⟨⟨e, b'⟩, he, rfl⟩
    obtain ⟨hMem, hd⟩ := List.mem_filter.mp he
    obtain rfl : e = d := by simpa using hd
    exact hMem
  · exact fun h => ⟨(d, b), List.mem_filter.mpr ⟨h, by simp⟩, rfl⟩

theorem blocksIn_cons_self : blocksIn ((d, b) :: live) d = b :: blocksIn live d := by
  simp [blocksIn]

theorem blocksIn_cons_of_ne (hne : d' ≠ d) : blocksIn ((d, b) :: live) d' = blocksIn live d' := by
  simp [blocksIn, Ne.symm hne]

/-- Freeing takes the block off the list of its space. -/
theorem blocksIn_free_self (ptr : Nat) :
    blocksIn (live.filter fun e => ¬ (e.1 = d ∧ e.2.ptr = ptr)) d =
      (blocksIn live d).filter fun b => b.ptr ≠ ptr := by
  unfold blocksIn
  rw [List.filter_map, List.filter_filter, List.filter_filter]
  congr 1
  apply List.filter_congr
  intro e _
  by_cases hd : e.1 = d <;> simp [hd]

theorem blocksIn_free_of_ne (hne : d' ≠ d) (ptr : Nat) :
    blocksIn (live.filter fun e => ¬ (e.1 = d ∧ e.2.ptr = ptr)) d' = blocksIn live d' := by
  unfold blocksIn
  rw [List.filter_filter]
  congr 1
  apply List.filter_congr
  intro e _
  by_cases hd : e.1 = d'
  · simp [hd, hne]
  · simp [hd]

/-- The blocks of one space, counted in the list of all blocks. -/
theorem countP_blocksIn (p : Block → Bool) (h : ∀ e ∈ live, e.1 = d) :
    live.countP (fun e => p e.2) = (blocksIn live d).countP p := by
  have hAll : (live.filter fun e => e.1 = d) = live :=
    List.filter_eq_self.mpr fun e he => by simpa using h e he
  unfold blocksIn
  rw [hAll, List.countP_map]
  rfl

/-- A pointer belongs to one block only. -/
theorem filter_ptr_eq {blocks : List Block} (hb : b ∈ blocks)
    (hDistinct : (blocks.map Block.ptr).Nodup) : (blocks.filter fun e => e.ptr = b.ptr) = [b] := by
  obtain ⟨before, after, rfl⟩ := List.append_of_mem hb
  rw [List.map_append, List.map_cons] at hDistinct
  obtain ⟨-, hAfter, hBefore⟩ := List.nodup_append.mp hDistinct
  have hNone {l : List Block} (h : ∀ e ∈ l, e.ptr ≠ b.ptr) :
      (l.filter fun e => e.ptr = b.ptr) = [] :=
    List.filter_eq_nil_iff.mpr fun e he => by simpa using h e he
  rw [List.filter_append, List.filter_cons_of_pos (by simp), hNone, hNone]
  · rfl
  · intro e he hEq
    exact (List.nodup_cons.mp hAfter).1 (hEq ▸ List.mem_map_of_mem he)
  · intro e he
    exact hBefore _ (List.mem_map_of_mem he) _ List.mem_cons_self

/-- Freeing takes one entry off the list of all blocks. -/
theorem countP_free (p : Block → Bool) (hb : b ∈ blocksIn live d)
    (hDistinct : ((blocksIn live d).map Block.ptr).Nodup) :
    live.countP (fun e => p e.2) =
      (live.filter fun e => ¬ (e.1 = d ∧ e.2.ptr = b.ptr)).countP (fun e => p e.2) +
        (if p b then 1 else 0) := by
  have hDropped : (live.filter fun e => e.1 = d ∧ e.2.ptr = b.ptr).map Prod.snd = [b] := by
    rw [← filter_ptr_eq hb hDistinct]
    unfold blocksIn
    rw [List.filter_map, List.filter_filter]
    congr 1
    apply List.filter_congr
    intro e _
    simp [Bool.and_comm]
  have hOne : (live.filter fun e => e.1 = d ∧ e.2.ptr = b.ptr).countP (fun e => p e.2) =
      if p b then 1 else 0 := by
    rw [← List.countP_singleton, ← hDropped, List.countP_map]
    rfl
  rw [List.countP_eq_countP_filter_add live _ fun e => ¬ (e.1 = d ∧ e.2.ptr = b.ptr), ← hOne]
  simp

end Blocks

namespace Sound

variable {ι : Type} [DecidableEq ι] {start : Nat} {D : Set ι} {s : HeapSystem ι} {d : ι}
  {mm : MemoryManager} {m : Memory} {live : List (ι × Block)} {b : Block} {p n : Nat}

/-- Only the loaded space is touched. -/
theorem space_update (h : Sound start D s)
    (hSelf : ∃ cs, Space m (bigStart start) (blocksIn live d) cs)
    (hOther : ∀ d' ≠ d, blocksIn live d' = s.liveIn d') :
    ∀ e ∈ D, ∃ cs, Space (Function.update s.mem d m e) (bigStart start) (blocksIn live e) cs := by
  intro e he
  by_cases hed : e = d
  · subst hed
    rwa [Function.update_self]
  · rw [Function.update_of_ne hed, hOther e hed]
    exact h.space e he

theorem slot_unique (h : Sound start D s) {e e' : ι × Block} (he : e ∈ s.live) (he' : e' ∈ s.live)
    (hLow : e.2.ptr ≤ bigStart start) (hEq : e.2.ptr = e'.2.ptr) : e = e' := by
  have : Std.Symm fun e e' : ι × Block => e.2.ptr ≤ bigStart start → e.2.ptr ≠ e'.2.ptr :=
    ⟨fun e e' hne hLow' hEq' => hne (hEq' ▸ hLow') hEq'.symm⟩
  by_contra hne
  exact h.slots_distinct.forall he he' hne hLow hEq

/-- A block that `free` does not take for one of the fast bin is a big one. -/
theorem big_of_not_small (h : Sound start D s) (hb : b ∈ s.liveIn d)
    (hSmall : ¬ (start ≤ b.ptr ∧ b.ptr ≤ bigStart start)) : bigStart start < b.ptr := by
  by_contra hLow
  obtain ⟨i, -, hPtr : b.ptr = start + 64 * i, -, -⟩ :=
    h.slot _ (mem_blocksIn.mp hb) (Nat.not_lt.mp hLow)
  omega

/-! ## One lemma for each way a call ends -/

theorem take_slot (h : Sound start D s) (hd : d ∈ D) {i : Nat} (hi : i < 100)
    (hFree : s.mm.fastBin.chunks i = 0) (hn : n ≤ 64) (hp : start + 64 * i ≠ 0) :
    Sound start D ⟨setSlot s.mm i (start + 64 * i), Function.update s.mem d (s.mem d),
      (d, ⟨start + 64 * i, n⟩) :: s.live⟩ := by
  have hFresh : ∀ e ∈ s.live, e.2.ptr ≠ start + 64 * i := by
    intro e he hPtr
    obtain ⟨j, -, hj, -, hTaken⟩ := h.slot e he (by rw [hPtr]; unfold bigStart; omega)
    obtain rfl : j = i := by omega
    exact hTaken hFree
  refine ⟨h.globals.setSlot _ _, ?_, ?_, ?_, ?_, ?_, h.bounded⟩
  · refine h.space_update ?_ fun d' hne => blocksIn_cons_of_ne hne
    obtain ⟨cs, hSpace⟩ := h.space d hd
    refine ⟨cs, ?_⟩
    rw [blocksIn_cons_self]
    refine hSpace.cons_small (fun b hb => hFresh _ (mem_blocksIn.mp hb)) ?_
    unfold bigStart
    omega
  · intro e he
    rcases List.mem_cons.mp he with rfl | he
    · exact hd
    · exact h.within e he
  · intro e he hLow
    rcases List.mem_cons.mp he with rfl | he
    · exact ⟨i, hi, rfl, hn, by rwa [setSlot_chunks, Function.update_self]⟩
    · obtain ⟨j, hj, hPtr, hSize, hTaken⟩ := h.slot e he hLow
      refine ⟨j, hj, hPtr, hSize, ?_⟩
      rw [setSlot_chunks]
      by_cases hji : j = i
      · rwa [hji, Function.update_self]
      · rwa [Function.update_of_ne hji]
  · exact List.pairwise_cons.mpr
      ⟨fun e he _ hEq => hFresh e he hEq.symm, h.slots_distinct⟩
  · rw [List.countP_cons_of_neg (by simp; omega)]
    exact h.count

theorem drop_slot (h : Sound start D s) (hd : d ∈ D) (hb : b ∈ s.liveIn d)
    (hLow : b.ptr ≤ bigStart start) :
    Sound start D ⟨freeFastbin s.mm b.ptr, Function.update s.mem d (s.mem d),
      s.live.filter fun e => ¬ (e.1 = d ∧ e.2.ptr = b.ptr)⟩ := by
  have hLive := mem_blocksIn.mp hb
  obtain ⟨i, hi, hPtr : b.ptr = start + 64 * i, -, -⟩ := h.slot _ hLive hLow
  have hIndex : ptrSub b.ptr s.mm.mappedHeap.fastBins / fastbinThreshold = i := by
    have hFits := h.globals.fits
    rw [h.globals.fastBins, ptrSub_of_le (by omega) (by unfold bigStart at *; omega)]
    unfold fastbinThreshold
    omega
  refine ⟨h.globals.setSlot _ _, ?_, ?_, ?_, ?_, ?_, h.bounded⟩
  · refine h.space_update ?_ fun d' hne => blocksIn_free_of_ne hne _
    obtain ⟨cs, hSpace⟩ := h.space d hd
    exact ⟨cs, by rw [blocksIn_free_self]; exact hSpace.filter _⟩
  · exact fun e he => h.within e (List.mem_of_mem_filter he)
  · intro e he heLow
    obtain ⟨heLive, hKept⟩ := List.mem_filter.mp he
    obtain ⟨j, hj, hjPtr, hjSize, hjTaken⟩ := h.slot e heLive heLow
    refine ⟨j, hj, hjPtr, hjSize, ?_⟩
    have hji : j ≠ i := by
      rintro rfl
      have hSame : e.2.ptr = b.ptr := hjPtr.trans hPtr.symm
      have heb : e = (d, b) := h.slot_unique heLive hLive heLow hSame
      simp [heb] at hKept
    rw [freeFastbin, hIndex, setSlot_chunks, Function.update_of_ne hji]
    exact hjTaken
  · exact h.slots_distinct.filter _
  · have hCount := countP_free (fun b => bigStart start < b.ptr) hb
      (h.space d hd).choose_spec.distinct
    rw [if_neg (by simpa using hLow)] at hCount
    exact h.count.trans hCount

theorem take_big (h : Sound start D s) (hd : d ∈ D) (hBig : bigStart start < p)
    (hSpace : ∃ cs, Space m (bigStart start) (⟨p, n⟩ :: s.liveIn d) cs)
    (hRoom : s.mm.mappedHeap.allocatedChunks + 1 < 4294967296) :
    Sound start D ⟨{ s.mm with mappedHeap := { s.mm.mappedHeap with
      allocatedChunks := (s.mm.mappedHeap.allocatedChunks + 1) % 4294967296 } },
      Function.update s.mem d m, (d, ⟨p, n⟩) :: s.live⟩ := by
  have hNext : (s.mm.mappedHeap.allocatedChunks + 1) % 4294967296 =
      s.mm.mappedHeap.allocatedChunks + 1 := Nat.mod_eq_of_lt hRoom
  refine ⟨h.globals.setAllocated _, ?_, ?_, ?_, ?_, ?_, ?_⟩
  · refine h.space_update ?_ fun d' hne => blocksIn_cons_of_ne hne
    rwa [blocksIn_cons_self]
  · intro e he
    rcases List.mem_cons.mp he with rfl | he
    · exact hd
    · exact h.within e he
  · intro e he hLow
    rcases List.mem_cons.mp he with rfl | he
    · exact absurd hLow (Nat.not_le.mpr hBig)
    · exact h.slot e he hLow
  · exact List.pairwise_cons.mpr
      ⟨fun e _ hLow => absurd hLow (Nat.not_le.mpr hBig), h.slots_distinct⟩
  · rw [List.countP_cons_of_pos (by simpa using hBig)]
    exact hNext.trans (congrArg (· + 1) h.count)
  · exact hNext.trans_lt hRoom

theorem drop_big (h : Sound start D s) (hd : d ∈ D) (hb : b ∈ s.liveIn d)
    (hBig : bigStart start < b.ptr) :
    Sound start D ⟨{ s.mm with mappedHeap := { s.mm.mappedHeap with
      allocatedChunks := ptrSub s.mm.mappedHeap.allocatedChunks 1 } },
      Function.update s.mem d (freeBig s.mm.mappedHeap (s.mem d) b.ptr).2,
      s.live.filter fun e => ¬ (e.1 = d ∧ e.2.ptr = b.ptr)⟩ := by
  obtain ⟨cs, hSpace⟩ := h.space d hd
  have hCount := countP_free (fun b => bigStart start < b.ptr) hb hSpace.distinct
  rw [if_pos (by simpa using hBig), ← h.count] at hCount
  have hAllocated : ptrSub s.mm.mappedHeap.allocatedChunks 1 =
      s.mm.mappedHeap.allocatedChunks - 1 := ptrSub_of_le (by omega) h.bounded
  refine ⟨h.globals.setAllocated _, ?_, ?_, ?_, ?_, ?_, ?_⟩
  · refine h.space_update ?_ fun d' hne => blocksIn_free_of_ne hne _
    obtain ⟨cs', hFreed, -⟩ := hSpace.freeBig hb hBig s.mm.mappedHeap
    exact ⟨cs', by rw [blocksIn_free_self]; exact hFreed⟩
  · exact fun e he => h.within e (List.mem_of_mem_filter he)
  · exact fun e he => h.slot e (List.mem_of_mem_filter he)
  · exact h.slots_distinct.filter _
  · rw [hAllocated, hCount, Nat.add_sub_cancel]
  · exact hAllocated.trans_lt (Nat.lt_of_le_of_lt (Nat.sub_le _ _) h.bounded)

/-! ## A call -/

theorem call_small (h : Sound start D s) (hd : d ∈ D) (hn : n ≤ 64) :
    Sound start D ⟨(mallocFastbin s.mm).2, Function.update s.mem d (s.mem d),
      if (mallocFastbin s.mm).1 = 0 then s.live
      else (d, ⟨(mallocFastbin s.mm).1, n⟩) :: s.live⟩ := by
  rcases mallocFastbin_cases s.mm with hFull | ⟨i, hi, hFree, hTake⟩
  · rw [hFull, Function.update_eq_self]
    exact h
  · have hFits := h.globals.fits
    rw [h.globals.binSize] at hi
    have hAddress : ptrAdvance s.mm.mappedHeap.fastBins (i * s.mm.fastBin.chunkSize / 4 * 4) =
        start + 64 * i := by
      rw [h.globals.fastBins, h.globals.chunkSize, ptrAdvance_of_lt]
      · omega
      · unfold bigStart at hFits
        omega
    rw [hTake, hAddress]
    by_cases hz : start + 64 * i = 0
    · have hSame : setSlot s.mm i 0 = s.mm := by
        unfold setSlot
        rw [← hFree, Function.update_eq_self]
      rw [if_pos hz, hz, hSame, Function.update_eq_self]
      exact h
    · rw [if_neg hz]
      exact h.take_slot hd hi hFree hn hz

/-- While no chunk is allocated, no block lies behind the first header. -/
theorem none_big (h : Sound start D s) (hz : s.mm.mappedHeap.allocatedChunks = 0) :
    ∀ b ∈ s.liveIn d, b.ptr ≤ bigStart start := by
  intro b hb
  have hCount := List.countP_eq_zero.mp (h.count.symm.trans hz) _ (mem_blocksIn.mp hb)
  simpa using hCount

/-- What `__malloc_big` does to the list of the loaded space. -/
theorem put_big (h : Sound start D s) {cs : List Nat}
    (hSpace : Space (s.mem d) (bigStart start) (s.liveIn d) cs) {fuel : Nat} {p : Placement}
    (hBig : fastbinThreshold < n) (hFits : s.Fits 4294967296 d (.malloc n))
    (hSafe : s.Placeable d (.malloc n))
    (hPlace : place fuel s.mm.mappedHeap (s.mem d) (reqSize n) = some p) :
    (putChunk (s.mem d) (reqSize n) p).1 = chunkAddress (s.mem d) p ∧
      bigStart start ≤ chunkAddress (s.mem d) p ∧ ∃ cs',
        Space (putChunk (s.mem d) (reqSize n) p).2 (bigStart start)
          (⟨chunkAddress (s.mem d) p + 13, n⟩ :: s.liveIn d) cs' ∧
        ∀ c ∈ cs', c ∈ cs ∨ c = chunkAddress (s.mem d) p := by
  obtain ⟨hWrap, hAllFit⟩ := hFits hBig
  have hFit := hAllFit fuel p hPlace
  obtain ⟨hLow, hHigh⟩ := reqSize_bounds hWrap
  have hMin : bigchunkMinSpace ≤ reqSize n := by
    unfold fastbinThreshold at hBig
    unfold bigchunkMinSpace sizeofBigChunk fastbinThreshold
    omega
  exact hSpace.put h.globals.bigChunks hPlace h.none_big hMin hLow (by omega) hFit
    (hSafe hBig fuel p hPlace)

theorem call_big (h : Sound start D s) (hd : d ∈ D) {fuel : Nat} {r : Nat × Heap × Memory}
    (hBig : fastbinThreshold < n) (hFits : s.Fits 4294967296 d (.malloc n))
    (hSafe : s.Placeable d (.malloc n)) (hCount : s.mm.mappedHeap.allocatedChunks + 1 < 4294967296)
    (hRun : mallocBig fuel s.mm.mappedHeap (s.mem d) (reqSize n) = some r) :
    Sound start D ⟨{ s.mm with mappedHeap := r.2.1 }, Function.update s.mem d r.2.2,
      if r.1 = 0 then s.live else (d, ⟨r.1, n⟩) :: s.live⟩ := by
  obtain ⟨p, hPlace, hPtr, hHeap, hMem⟩ := mallocBig_eq_some hRun
  obtain ⟨hWrap, hAllFit⟩ := hFits hBig
  have hFit := hAllFit fuel p hPlace
  obtain ⟨hLow, hHigh⟩ := reqSize_bounds hWrap
  obtain ⟨cs, hSpace⟩ := h.space d hd
  obtain ⟨hAddress, hAbove, cs', hNew, -⟩ := h.put_big hSpace hBig hFits hSafe hPlace
  have hPtr' : r.1 = chunkAddress (s.mem d) p + 13 := by
    rw [hPtr, hAddress]
    exact ptrAdvance_of_lt (n := 13) (by omega)
  have hHeap' : r.2.1 = { s.mm.mappedHeap with
      allocatedChunks := (s.mm.mappedHeap.allocatedChunks + 1) % 4294967296 } := by
    rw [hHeap, if_pos (by unfold bigStart at hAbove; omega)]
  rw [if_neg (by omega), hHeap', hMem, hPtr']
  exact h.take_big hd (by omega) ⟨cs', hNew⟩ hCount

theorem call_free (h : Sound start D s) (hd : d ∈ D) (hb : b ∈ s.liveIn d) :
    Sound start D ⟨(free s.mm (s.mem d) b.ptr).1,
      Function.update s.mem d (free s.mm (s.mem d) b.ptr).2,
      s.live.filter fun e => ¬ (e.1 = d ∧ e.2.ptr = b.ptr)⟩ := by
  unfold free
  rw [h.globals.fastBins, h.globals.bigChunks]
  by_cases hSmall : start ≤ b.ptr ∧ b.ptr ≤ bigStart start
  · rw [if_pos hSmall]
    exact h.drop_slot hd hb hSmall.2
  · rw [if_neg hSmall]
    simp only [freeBig_fst]
    exact h.drop_big hd hb (h.big_of_not_small hb hSmall)

theorem call_store (h : Sound start D s) (hd : d ∈ D) (hb : b ∈ s.liveIn d) {a : Nat}
    (ha : b.ptr ≤ a ∧ a < b.ptr + b.size) (v : Nat) :
    Sound start D { s with mem := Function.update s.mem d (store8 (s.mem d) a v) } := by
  refine ⟨h.globals, ?_, h.within, h.slot, h.slots_distinct, h.count, h.bounded⟩
  obtain ⟨cs, hSpace⟩ := h.space d hd
  exact h.space_update ⟨cs, hSpace.store hb ha v⟩ fun _ _ => rfl

/-- A call keeps the invariant, whichever space is loaded. -/
theorem step {t : HeapSystem ι} {c : Call} (h : Sound start D s) (hd : d ∈ D)
    (hStep : HeapSystem.Step s (d, c) t) (hFits : s.Fits 4294967296 d c) (hSafe : s.Placeable d c)
    (hCount : s.mm.mappedHeap.allocatedChunks + 1 < 4294967296) : Sound start D t := by
  obtain ⟨hLegal, fuel, hRun⟩ := hStep
  cases c with
  | malloc n =>
    obtain ⟨r, hMalloc, rfl⟩ := Option.map_eq_some_iff.mp hRun
    simp only [malloc] at hMalloc
    split at hMalloc
    · cases hMalloc
      simp only [if_true, Function.update_eq_self]
      exact h
    · split at hMalloc
      · cases hMalloc
        rename_i hSmall
        exact h.call_small hd hSmall
      · rename_i hBig
        obtain ⟨r', hMallocBig, rfl⟩ := Option.map_eq_some_iff.mp hMalloc
        exact h.call_big hd (Nat.not_le.mp hBig) hFits hSafe hCount hMallocBig
  | free ptr =>
    obtain ⟨b, hb, rfl⟩ := hLegal
    cases hRun
    exact h.call_free hd hb
  | store a v =>
    obtain ⟨b, hb, ha⟩ := hLegal
    cases hRun
    exact h.call_store hd hb ha v

/-- The headers after a call: those from before, and the one a request was placed at. -/
theorem headers_step {t : HeapSystem ι} {c : Call} {cs : List Nat}
    (h : Sound start D s) (hStep : HeapSystem.Step s (d, c) t) (hFits : s.Fits 4294967296 d c)
    (hSafe : s.Placeable d c)
    (hSpace : Space (s.mem d) (bigStart start) (s.liveIn d) cs) :
    ∃ cs', Chunks (t.mem d) cs' ∧ cs'.head? = some (bigStart start) ∧ ∀ a ∈ cs', a ∈ cs ∨
      ∃ size fuel p, c = .malloc size ∧ fastbinThreshold < size ∧
        place fuel s.mm.mappedHeap (s.mem d) (reqSize size) = some p ∧
        a = chunkAddress (s.mem d) p := by
  obtain ⟨hLegal, fuel, hRun⟩ := hStep
  have hSame {m : Memory} (hMem : m = s.mem d) : ∃ cs', Chunks m cs' ∧
      cs'.head? = some (bigStart start) ∧ ∀ a ∈ cs', a ∈ cs ∨ ∃ size fuel p, c = .malloc size ∧
        fastbinThreshold < size ∧
        place fuel s.mm.mappedHeap (s.mem d) (reqSize size) = some p ∧
        a = chunkAddress (s.mem d) p :=
    ⟨cs, hMem ▸ hSpace.chunks, hSpace.head_eq, fun _ => Or.inl⟩
  cases c with
  | malloc size =>
    obtain ⟨r, hMalloc, rfl⟩ := Option.map_eq_some_iff.mp hRun
    simp only [Function.update_self]
    unfold malloc at hMalloc
    split at hMalloc
    · cases hMalloc
      exact hSame rfl
    · split at hMalloc
      · cases hMalloc
        exact hSame rfl
      · rename_i hLarge
        have hBig : fastbinThreshold < size := Nat.not_le.mp hLarge
        obtain ⟨r', hMallocBig, rfl⟩ := Option.map_eq_some_iff.mp hMalloc
        obtain ⟨p, hPlace, -, -, hMem⟩ := mallocBig_eq_some hMallocBig
        obtain ⟨-, -, cs', hNew, hSub⟩ := h.put_big hSpace hBig hFits hSafe hPlace
        refine ⟨cs', hMem ▸ hNew.chunks, hNew.head_eq, fun a ha => ?_⟩
        rcases hSub a ha with hOld | hHere
        · exact Or.inl hOld
        · exact Or.inr ⟨size, fuel, p, rfl, hBig, hPlace, hHere⟩
  | free ptr =>
    obtain ⟨b, hb, rfl⟩ := hLegal
    cases hRun
    simp only [Function.update_self]
    by_cases hSmall : start ≤ b.ptr ∧ b.ptr ≤ bigStart start
    · simp only [free, h.globals.fastBins, h.globals.bigChunks, if_pos hSmall]
      exact hSame rfl
    · have hBig := h.big_of_not_small hb hSmall
      obtain ⟨cs', hFreed, hSub⟩ := hSpace.freeBig hb hBig s.mm.mappedHeap
      simp only [free, h.globals.fastBins, h.globals.bigChunks, if_neg hSmall]
      exact ⟨cs', hFreed.chunks, hFreed.head_eq, fun a ha => Or.inl (hSub a ha)⟩
  | store a v =>
    obtain ⟨b, hb, ha⟩ := hLegal
    cases hRun
    simp only [Function.update_self]
    exact ⟨cs, (hSpace.store hb ha v).chunks, hSpace.head_eq, fun _ => Or.inl⟩

/-! ## What the invariant gives -/

/-- The walk goes through the headers of the loaded space. -/
theorem onWalk_iff (h : Sound start D s) {cs : List Nat}
    (hSpace : Space (s.mem d) (bigStart start) (s.liveIn d) cs) {c : Nat} :
    s.OnWalk d c ↔ c ∈ cs := by
  rw [HeapSystem.OnWalk, h.globals.bigChunks]
  constructor
  · exact hSpace.chunks.mem_of_path hSpace.head_mem
  · intro hc
    obtain ⟨c', rest, rfl⟩ := List.exists_cons_of_ne_nil (List.ne_nil_of_mem hc)
    obtain rfl : c' = bigStart start := by simpa using hSpace.head_eq
    exact hSpace.chunks.threaded.path_of_mem hc

/-- The allocator returns, whatever is asked of it. -/
theorem returns (h : Sound start D s) (hd : d ∈ D) (c : Call) :
    ∃ fuel t, s.call fuel d c = some t := by
  cases c with
  | malloc n =>
    obtain ⟨cs, hSpace⟩ := h.space d hd
    obtain ⟨fuel, p, hSearch⟩ := hSpace.searchHole_total (reqSize n)
    have hMalloc : ∃ r, malloc fuel s.mm (s.mem d) n = some r := by
      unfold malloc mallocBig place
      rw [h.globals.bigChunks, hSearch]
      split
      · exact ⟨_, rfl⟩
      · split
        · exact ⟨_, rfl⟩
        · split <;> exact ⟨_, rfl⟩
    obtain ⟨r, hr⟩ := hMalloc
    exact ⟨fuel, _, Option.map_eq_some_iff.mpr ⟨r, hr, rfl⟩⟩
  | free ptr => exact ⟨0, _, rfl⟩
  | store a v => exact ⟨0, _, rfl⟩

theorem safe (h : Sound start D s) (hd : d ∈ D) : s.Safe d := by
  obtain ⟨cs, hSpace⟩ := h.space d hd
  constructor
  · have hPtrs : (s.liveIn d).Pairwise fun b b' => b.ptr ≠ b'.ptr :=
      List.pairwise_map.mp hSpace.distinct
    refine hPtrs.imp_of_mem fun {b b'} hb hb' hne => ?_
    have hHead {e : Block} (he : e ∈ s.liveIn d) :
        e.ptr + e.size ≤ bigStart start ∨ bigStart start + 13 ≤ e.ptr := by
      exact hSpace.data_apart he hSpace.head_mem
    rcases Nat.lt_or_ge (bigStart start) b.ptr with hBig | hLow <;>
      rcases Nat.lt_or_ge (bigStart start) b'.ptr with hBig' | hLow'
    · exact hSpace.big_disjoint hb hb' hBig hBig' hne
    · have := hSpace.small b' hb' hLow'
      omega
    · have := hSpace.small b hb hLow
      omega
    · obtain ⟨i, -, hPtr : b.ptr = start + 64 * i, hSize : b.size ≤ 64, -⟩ :=
        h.slot _ (mem_blocksIn.mp hb) hLow
      obtain ⟨j, -, hPtr' : b'.ptr = start + 64 * j, hSize' : b'.size ≤ 64, -⟩ :=
        h.slot _ (mem_blocksIn.mp hb') hLow'
      omega
  · intro b hb c hPath
    rw [h.globals.bigChunks] at hPath
    exact hSpace.data_apart hb (hSpace.chunks.mem_of_path hSpace.head_mem hPath)

end Sound

end Juos.Kmm
