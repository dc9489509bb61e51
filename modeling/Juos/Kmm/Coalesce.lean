import Juos.Kmm.BestFit
import Juos.Kmm.Thread
import Mathlib.Algebra.GroupWithZero.Nat

/-!
# Free neighbours

What freeing a chunk of a well-formed list makes of the free chunks next to it. `Coalesced` says
that they have become one chunk, `coalesced_iff` that this happens exactly when there are none:
merging forwards counts a header twice, and merging backwards lets the wrong chunk survive.
-/

namespace Juos.Kmm

open Machine HeapSystem

variable {m m' : Memory} {head a c d : Nat} {cs pre run post : List Nat}

/-! ## What is claimed of the list -/

/-- The free chunks around `c`, which counts as free itself. -/
structure FreeRun (m : Memory) (c : Nat) (pre run post : List Nat) : Prop where
  mem : c ∈ run
  free : ∀ d ∈ run, d ≠ c → used m d = false
  before : ∀ d ∈ pre.getLast?, used m d = true
  behind : ∀ d ∈ post.head?, used m d = true

/-- The chunks of `run` have become the free chunk `a`, the first of them. -/
structure MergedInto (m m' : Memory) (head : Nat) (pre run post : List Nat) (a : Nat) : Prop where
  lowest : run.head? = some a
  list : WellFormed m' head (pre ++ a :: post)
  size_eq : size m' a = (run.map (size m)).sum
  free : used m' a = false
  size_other : ∀ d ∈ pre ++ post, size m' d = size m d
  used_other : ∀ d ∈ pre ++ post, used m' d = used m d

def Coalesced (m m' : Memory) (head : Nat) (cs : List Nat) (c : Nat) : Prop :=
  ∃ pre run post a, cs = pre ++ run ++ post ∧ FreeRun m c pre run post ∧
    MergedInto m m' head pre run post a

/-- No chunk next to `c` is free. -/
structure NeighboursUsed (m : Memory) (c : Nat) : Prop where
  before : prev m c ≠ 0 → used m (prev m c) = true
  behind : next m c ≠ 0 → used m (next m c) = true

/-! ## No free neighbour -/

/-- Nothing is merged backwards. -/
theorem freed_eq_forwards (h : Thread m cs) (hc : c ∈ cs)
    (hBefore : prev m c ≠ 0 → used m (prev m c) = true) :
    freed m c = consolidateForwards (setUsed m c false) c := by
  obtain ⟨pre, post, rfl⟩ := List.append_of_mem hc
  obtain ⟨post', hForwards⟩ := (h.mark hc).forwards
  apply consolidateBackwards_of_not
  rw [hForwards.prev_eq, (h.links_mark hc hc).1]
  rintro ⟨hz, hFree⟩
  obtain ⟨pre', rfl⟩ := h.split_of_prev hz
  obtain ⟨hMem, hne⟩ := h.prev_ne hc hz
  rw [hForwards.used_eq _ (by simp), h.used_mark hc hMem hne, hBefore hz] at hFree
  cases hFree

theorem freed_of_neighboursUsed (h : Thread m cs) (hc : c ∈ cs) (hNone : NeighboursUsed m c) :
    freed m c = setUsed m c false := by
  rw [freed_eq_forwards h hc hNone.before]
  apply consolidateForwards_of_not
  rw [(h.links_mark hc hc).2.1]
  rintro ⟨hz, hFree⟩
  obtain ⟨hMem, hne⟩ := h.next_ne hc hz
  rw [h.used_mark hc hMem hne, hNone.behind hz] at hFree
  cases hFree

theorem coalesced_of_neighboursUsed (h : WellFormed m head cs) (hc : c ∈ cs)
    (hNone : NeighboursUsed m c) : Coalesced m (freed m c) head cs c := by
  have hThread := h.chunks.thread
  rw [freed_of_neighboursUsed hThread hc hNone]
  obtain ⟨pre, post, rfl⟩ := List.append_of_mem hc
  refine ⟨pre, [c], post, c, by simp, ⟨by simp, ?_, ?_, ?_⟩, ⟨rfl, ?_, ?_, ?_, ?_, ?_⟩⟩
  · intro d hd hne
    exact absurd (List.mem_singleton.mp hd) hne
  · intro d hd
    have hPrev : prev m c = d := by rw [h.prev_of_split, Option.mem_def.mp hd, Option.getD_some]
    have hPos := h.chunks.pos d (by simp [List.mem_of_getLast? hd])
    rw [← hPrev]
    exact hNone.before (by omega)
  · intro d hd
    have hNext : next m c = d := by
      rw [hThread.next_of_split, Option.mem_def.mp hd, Option.getD_some]
    have hPos := h.chunks.pos d (by simp [List.mem_of_head? hd])
    rw [← hNext]
    exact hNone.behind (by omega)
  · exact h.congr fun d hd => hThread.links_mark hc hd
  · rw [(hThread.links_mark hc hc).2.2]
    simp
  · exact used_of_chunkAt (chunkAt_setUsed m c false)
  · intro d hd
    exact (hThread.links_mark hc (hThread.mem_ne hd).1).2.2
  · intro d hd
    exact hThread.used_mark hc (hThread.mem_ne hd).1 (hThread.mem_ne hd).2

/-! ## A free neighbour -/

/-- What follows a run is no chunk of the run. -/
theorem head?_notMem_run (h : Thread m (pre ++ run ++ post)) : post.head?.getD 0 ∉ run := by
  intro hMem
  cases post with
  | nil => exact absurd (h.pos 0 (by simp_all)) (Nat.lt_irrefl 0)
  | cons n post =>
    have hRun : n ∈ pre ++ run := List.mem_append_right _ (by simpa using hMem)
    exact (List.nodup_append.mp h.nodup).2.2 n hRun n List.mem_cons_self rfl

/-- When a free chunk leads to `c`, the chunks before `c` lead on as they did, or to `c`. -/
theorem next_freed (h : Thread m (pre ++ c :: post)) (hz : prev m c ≠ 0)
    (hFree : used m (prev m c) = false) (hd : d ∈ pre) :
    next (freed m c) d = next m d ∨ next (freed m c) d = c := by
  have hc : c ∈ pre ++ c :: post := by simp
  obtain ⟨post', hForwards⟩ := (h.mark hc).forwards
  obtain ⟨front, rfl⟩ := h.split_of_prev hz
  have hp : prev (consolidateForwards (setUsed m c false) c) c = prev m c :=
    hForwards.prev_eq.trans (h.links_mark hc hc).1
  have hMark : used (setUsed m c false) (prev m c) = false :=
    (h.used_mark hc (h.prev_ne hc hz).1 (h.prev_ne hc hz).2).trans hFree
  have hFree' : used (consolidateForwards (setUsed m c false) c) (prev m c) = false :=
    (hForwards.used_eq _ (by simp)).trans hMark
  have hMid : Thread (consolidateForwards (setUsed m c false) c)
      (front ++ prev m c :: c :: post') := by
    simpa using hForwards.thread
  have hMerge := backwardMerge hMid hFree' hp
  have hOld : next (consolidateForwards (setUsed m c false) c) d = next m d :=
    (hForwards.next_eq d hd).trans (h.links_mark hc (List.mem_append_left _ hd)).2.1
  by_cases hdv : d = prev (consolidateForwards (setUsed m c false) c) (prev m c)
  · right
    rw [hdv]
    apply hMerge.next_prev
    rw [← hdv]
    exact (h.pos d (List.mem_append_left _ hd)).ne'
  · left
    rw [← hOld]
    have hMem : d ∈ (front ++ [prev m c]) ++ c :: post' := List.mem_append_left _ hd
    exact hMerge.next_eq d (by simpa using hMem) hdv

/-- A free chunk in front of `c` survives, and what it leads to is no longer in the list. -/
theorem not_coalesced_of_before (h : WellFormed m head cs) (hz : prev m c ≠ 0)
    (hFree : used m (prev m c) = false) : ¬ Coalesced m (freed m c) head cs c := by
  rintro ⟨pre, run, post, a, rfl, hRun, hMerged⟩
  obtain ⟨l, r, rfl⟩ := List.append_of_mem hRun.mem
  have hThread := h.chunks.thread
  have hAt : Thread m ((pre ++ l) ++ c :: (r ++ post)) := by simpa using hThread
  obtain ⟨front, hFront⟩ := hAt.split_of_prev hz
  -- the chunk before `c` is free, so it belongs to the run
  have hl : l ≠ [] := by
    rintro rfl
    have hLast : pre.getLast? = some (prev m c) := by simp_all
    rw [hRun.before _ (Option.mem_def.mpr hLast)] at hFree
    cases hFree
  obtain ⟨b, l, rfl⟩ := List.exists_cons_of_ne_nil hl
  obtain rfl : b = a := by simpa using hMerged.lowest
  have hStays := hMerged.list.chunks.next_of_split
  have hOut := head?_notMem_run hThread
  rw [← hStays] at hOut
  apply hOut
  rcases next_freed hAt hz hFree (d := b) (by simp) with hSame | hSelf
  · rw [hSame]
    have hSplit : Thread m (pre ++ b :: (l ++ c :: (r ++ post))) := by simpa using hThread
    rw [hSplit.next_of_split]
    cases l <;> simp
  · rw [hSelf]
    simp

/-- Merging forwards alone adds the header of the chunk behind to sizes that contain it. -/
theorem not_coalesced_of_behind (h : WellFormed m head cs)
    (hBefore : prev m c ≠ 0 → used m (prev m c) = true) (hz : next m c ≠ 0)
    (hFree : used m (next m c) = false) : ¬ Coalesced m (freed m c) head cs c := by
  rintro ⟨pre, run, post, a, rfl, hRun, hMerged⟩
  obtain ⟨l, r, rfl⟩ := List.append_of_mem hRun.mem
  have hThread := h.chunks.thread
  have hSplit : WellFormed m head ((pre ++ l) ++ c :: (r ++ post)) := by simpa using h
  have hAt := hSplit.chunks.thread
  have hc : c ∈ (pre ++ l) ++ c :: (r ++ post) := by simp
  -- the chunk before `c` is used, so the run begins with `c`
  obtain rfl : l = [] := by
    rcases List.eq_nil_or_concat l with rfl | ⟨l, p, rfl⟩
    · rfl
    · rw [List.concat_eq_append] at hRun hSplit
      have hp : prev m c = p := by simpa using hSplit.prev_of_split
      have hMem : p ∈ (pre ++ (l ++ [p])) ++ (r ++ post) := by simp
      obtain ⟨hIn, hpc⟩ := hSplit.chunks.thread.mem_ne hMem
      have hUsed := hBefore (hp ▸ (hSplit.chunks.pos p hIn).ne')
      rw [hp, hRun.free p (by simp) hpc] at hUsed
      cases hUsed
  obtain rfl : c = a := by simpa using hMerged.lowest
  -- the chunk behind `c` is free, so the run goes on with it
  have hNext := hAt.next_of_split
  cases r with
  | nil =>
    have hHead : next m c ∈ post.head? := by
      cases post with
      | nil => exact absurd hNext hz
      | cons n post => simpa using hNext.symm
    rw [hRun.behind _ hHead] at hFree
    cases hFree
  | cons t r =>
    obtain rfl : next m c = t := by simpa using hNext
    have hFreed := freed_eq_forwards hThread (by simp) hBefore
    have hLong : Thread (setUsed m c false) (pre ++ c :: next m c :: (r ++ post)) := by
      simpa using hThread.mark (by simp)
    have hMark : used (setUsed m c false) (next m c) = false :=
      (hAt.used_mark hc (hAt.next_ne hc hz).1 (hAt.next_ne hc hz).2).trans hFree
    have hMerge := forwardMerge hLong hMark
    rw [← hFreed] at hMerge
    have hLater : Thread m ((pre ++ [c]) ++ next m c :: (r ++ post)) := by simpa using hThread
    have hStays := hMerged.list.chunks.next_of_split
    rw [next_of_chunkAt hMerge.self, (hAt.links_mark hc (hAt.next_ne hc hz).1).2.1,
      hLater.next_of_split] at hStays
    cases r with
    | cons x r =>
      -- another free chunk follows, and stays in the list
      have hOut := head?_notMem_run hThread
      rw [← hStays] at hOut
      exact hOut (by simp)
    | nil =>
      have hSize := hMerged.size_eq
      rw [size_of_chunkAt hMerge.self, (hAt.links_mark hc hc).2.2,
        (hAt.links_mark hc (hAt.next_ne hc hz).1).2.2] at hSize
      simp only [List.nil_append, List.map_cons, List.map_nil, List.sum_cons, List.sum_nil] at hSize
      omega

/-- Freeing a used chunk merges it with the free chunks around it exactly when there are none. -/
theorem coalesced_iff (hForm : WellFormed m head cs) (hc : c ∈ cs) (hp : Heap) :
    Coalesced m (freeBig hp m (ptrAdvance c sizeofBigChunk)).2 head cs c ↔ NeighboursUsed m c := by
  rw [freeBig_snd hp m (hForm.chunks.lt hc)]
  constructor
  · intro hCoalesced
    by_contra hNot
    by_cases hBefore : prev m c ≠ 0 → used m (prev m c) = true
    · have hBehind : ¬ (next m c ≠ 0 → used m (next m c) = true) := fun h => hNot ⟨hBefore, h⟩
      simp only [Classical.not_imp, Bool.not_eq_true] at hBehind
      exact not_coalesced_of_behind hForm hBefore hBehind.1 hBehind.2 hCoalesced
    · simp only [Classical.not_imp, Bool.not_eq_true] at hBefore
      exact not_coalesced_of_before hForm hBefore.1 hBefore.2 hCoalesced
  · exact coalesced_of_neighboursUsed hForm hc

/-- The first of two chunks, of which the second is free. -/
theorem coalesced_iff_free_last : ∃ t, kernelHeap (fitsNow 8 0xC1000000)
      [.malloc 100, .malloc 100, .free 0xC0001B15] = some t ∧
    (Coalesced (t.mem ()) (freeBig t.mm.mappedHeap (t.mem ())
        (ptrAdvance 0xC0001A90 sizeofBigChunk)).2 0xC0001A90 [0xC0001A90, 0xC0001B08] 0xC0001A90 ↔
      NeighboursUsed (t.mem ()) 0xC0001A90) := by
  obtain ⟨t, ht, -, -, hFirst, hSecond⟩ := kernelHeap_free_last
  have hForm := wellFormed_pair hFirst hSecond (by decide) (by decide) (by decide)
  exact ⟨t, ht, coalesced_iff hForm (by simp) t.mm.mappedHeap⟩

/-- Freed, it merges with the second one into a chunk of 253 bytes. -/
theorem not_coalesced_free_last : ∃ t, kernelHeap (fitsNow 8 0xC1000000)
      [.malloc 100, .malloc 100, .free 0xC0001B15] = some t ∧
    WellFormed (t.mem ()) t.mm.mappedHeap.bigChunks [0xC0001A90, 0xC0001B08] ∧
    used (t.mem ()) 0xC0001A90 = true ∧
    ¬ Coalesced (t.mem ()) (freeBig t.mm.mappedHeap (t.mem ())
      (ptrAdvance 0xC0001A90 sizeofBigChunk)).2 t.mm.mappedHeap.bigChunks
        [0xC0001A90, 0xC0001B08] 0xC0001A90 := by
  obtain ⟨t, ht, hHead, -, hFirst, hSecond⟩ := kernelHeap_free_last
  have hForm := wellFormed_pair hFirst hSecond (by decide) (by decide) (by decide)
  have hPrev : prev (t.mem ()) 0xC0001A90 = 0 := prev_of_chunkAt hFirst
  have hNext : next (t.mem ()) 0xC0001A90 = 0xC0001B08 := next_of_chunkAt hFirst
  have hFree : used (t.mem ()) (next (t.mem ()) 0xC0001A90) = false := by
    rw [hNext]
    exact used_of_chunkAt hSecond
  refine ⟨t, ht, ?_⟩
  rw [hHead, freeBig_snd _ _ (by decide)]
  refine ⟨hForm, used_of_chunkAt hFirst, ?_⟩
  exact not_coalesced_of_behind hForm (fun hz => absurd hPrev hz) (by rw [hNext]; decide) hFree

end Juos.Kmm
