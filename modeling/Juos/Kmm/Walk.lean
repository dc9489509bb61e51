import Juos.Kmm.Allocator
import Juos.Machine.Linked

/-!
# The walk over the big chunks

`Chunks m cs` says that in the memory `m` the chunk headers form one linked list `cs` at
increasing addresses, none of them across the end of the address space. Two such headers never
overlap, so every branch of `__malloc_big` and `__free_big` can be described by the headers it
changes: the specifications below list those, and `chunkAt` is unchanged everywhere else.

`searchHole_spec` and `searchHole_total` describe the search loop on such a list.
-/

namespace Juos.Kmm

open Machine

structure Chunks (m : Memory) (cs : List Nat) : Prop
    extends Linked 13 (next m) (prev m) cs where
  fits : ∀ c ∈ cs, c + 13 ≤ 4294967296

theorem Chunks.header_apart {m : Memory} {cs : List Nat} {c d : Nat} (h : Chunks m cs)
    (hc : c ∈ cs) (hd : d ∈ cs) (hne : c ≠ d) : Apart c 13 d 13 := by
  have hcFits := h.fits c hc
  have hdFits := h.fits d hd
  rcases h.apart hc hd hne with hLe | hGe
  · exact apart_of_le hLe hdFits
  · exact apart_of_ge hGe hcFits

theorem Chunks.lt {m : Memory} {cs : List Nat} {c : Nat} (h : Chunks m cs) (hc : c ∈ cs) :
    c < 4294967296 := by
  have := h.fits c hc
  omega

/-! ## The search loop -/

/-- What the loop may stop at, when it starts from `c` with `post` still to come. -/
def Found (m : Memory) (reqSize : Nat) (cs : List Nat) : Placement → Prop
  | .first _ => False
  | .hole c => c ∈ cs ∧ next m c ≠ 0 ∧ used m c = false ∧ reqSize ≤ next m c - c
  | .append c => cs.getLast? = some c ∧
      ∀ d ∈ cs, next m d ≠ 0 → used m d = false → next m d - d < 4294967295 →
        next m d - d < reqSize

theorem searchHole_spec {m : Memory} {reqSize : Nat} {pre post : List Nat} {c fuel : Nat}
    {p : Placement} (h : Chunks m (pre ++ c :: post))
    (hRun : searchHole m reqSize fuel c = some p) : Found m reqSize (c :: post) p := by
  induction fuel generalizing pre c post with
  | zero => cases hRun
  | succ fuel ih =>
    rw [searchHole] at hRun
    cases post with
    | nil =>
      have hEnd : next m c = 0 := by simpa using h.next_of_split
      rw [if_pos hEnd] at hRun
      cases hRun
      exact ⟨by simp, fun d hd hNext => by simp_all⟩
    | cons n post =>
      have hNext : next m c = n := by simpa using h.next_of_split
      have hne : next m c ≠ 0 := by rw [hNext]; exact (h.pos n (by simp)).ne'
      have hGap := (h.next_mem (by simp) hne).2
      have hExtent : ptrSub (next m c) c = next m c - c :=
        ptrSub_of_le (by omega) (load32_lt _ _)
      rw [if_neg hne, hExtent] at hRun
      split at hRun
      · rename_i hHole
        cases hRun
        exact ⟨by simp, hne, hHole.1, hHole.2.2⟩
      · rename_i hSmall
        rw [hNext] at hRun
        have hLater : Chunks m ((pre ++ [c]) ++ n :: post) := by simpa using h
        have hRest := ih hLater hRun
        cases p with
        | first d => exact hRest
        | hole d => exact ⟨List.mem_cons_of_mem _ hRest.1, hRest.2⟩
        | append d =>
          refine ⟨by simpa using hRest.1, fun e he heNext heFree heMax => ?_⟩
          rcases List.mem_cons.mp he with rfl | he
          · by_contra hLarge
            exact hSmall ⟨heFree, heMax, by omega⟩
          · exact hRest.2 e he heNext heFree heMax

/-- The walk over a list of chunks ends: as much fuel as there are chunks is enough. -/
theorem searchHole_total {m : Memory} {reqSize : Nat} {pre post : List Nat} {c fuel : Nat}
    (h : Chunks m (pre ++ c :: post)) (hFuel : post.length < fuel) :
    ∃ p, searchHole m reqSize fuel c = some p := by
  induction fuel generalizing pre c post with
  | zero => omega
  | succ fuel ih =>
    rw [searchHole]
    split
    · exact ⟨_, rfl⟩
    · split
      · exact ⟨_, rfl⟩
      · rename_i hne _
        cases post with
        | nil => exact absurd (by simpa using h.next_of_split) hne
        | cons n post =>
          have hNext : next m c = n := by simpa using h.next_of_split
          have hLater : Chunks m ((pre ++ [c]) ++ n :: post) := by simpa using h
          rw [hNext]
          exact ih hLater (by simpa using hFuel)

/-- Where the search stops does not depend on how far it was allowed to go. -/
theorem searchHole_unique {m : Memory} {reqSize c fuel fuel' : Nat} {p p' : Placement}
    (hRun : searchHole m reqSize fuel c = some p)
    (hRun' : searchHole m reqSize fuel' c = some p') : p = p' := by
  induction fuel generalizing c fuel' with
  | zero => cases hRun
  | succ fuel ih =>
    cases fuel' with
    | zero => cases hRun'
    | succ fuel' =>
      rw [searchHole] at hRun hRun'
      by_cases hEnd : next m c = 0
      · rw [if_pos hEnd] at hRun hRun'
        exact Option.some.inj (hRun.symm.trans hRun')
      · rw [if_neg hEnd] at hRun hRun'
        split at hRun
        · rename_i hHole
          rw [if_pos hHole] at hRun'
          exact Option.some.inj (hRun.symm.trans hRun')
        · rename_i hSmall
          rw [if_neg hSmall] at hRun'
          exact ih hRun hRun'

theorem place_unique {hp : Heap} {m : Memory} {reqSize fuel fuel' : Nat} {p p' : Placement}
    (hRun : place fuel hp m reqSize = some p) (hRun' : place fuel' hp m reqSize = some p') :
    p = p' := by
  unfold place at hRun hRun'
  by_cases hz : hp.allocatedChunks = 0
  · rw [if_pos hz] at hRun hRun'
    exact Option.some.inj (hRun.symm.trans hRun')
  · rw [if_neg hz] at hRun hRun'
    exact searchHole_unique hRun hRun'

/-! ## Headers after each branch of `__malloc_big` -/

section Malloc

variable {m : Memory} {c d last req : Nat}

theorem chunkAt_putFirst (hReq : req < 4294967296) :
    chunkAt (setUsed (setSize m c req) c true) c =
      { chunkAt m c with size := req, used := true } := by
  rw [chunkAt_setUsed, chunkAt_setSize, Nat.mod_eq_of_lt hReq]

theorem chunkAt_putFirst_of_apart (hApart : Apart c 13 d 13) :
    chunkAt (setUsed (setSize m c req) c true) d = chunkAt m d :=
  chunkAt_congr ((sameOn_setSize req hApart).trans (sameOn_setUsed true hApart))

/-- No request that was rounded without wrapping is small enough for the test that would split
a reused chunk. -/
theorem reuseHole_eq (hMin : bigchunkMinSpace ≤ req) (hReq : req < 4294967296) :
    reuseHole m req c = setSize (setUsed m c true) c
      (ptrSub (chunkDiff (next (setUsed m c true) c) c) 1) := by
  have hNoSplit : ¬ req < ptrSub req bigchunkMinSpace := by
    rw [ptrSub_of_le hMin hReq]
    omega
  simp only [reuseHole, if_neg hNoSplit]

theorem chunkAt_reuseHole (hMin : bigchunkMinSpace ≤ req) (hReq : req < 4294967296) :
    ∃ s, chunkAt (reuseHole m req c) c = { chunkAt m c with size := s, used := true } := by
  refine ⟨ptrSub (chunkDiff (next (setUsed m c true) c) c) 1 % 4294967296, ?_⟩
  rw [reuseHole_eq hMin hReq, chunkAt_setSize, chunkAt_setUsed]

theorem chunkAt_reuseHole_of_apart (hMin : bigchunkMinSpace ≤ req) (hReq : req < 4294967296)
    (hApart : Apart c 13 d 13) : chunkAt (reuseHole m req c) d = chunkAt m d := by
  rw [reuseHole_eq hMin hReq]
  exact chunkAt_congr ((sameOn_setUsed true hApart).trans (sameOn_setSize _ hApart))

/-- The address of an appended chunk, as the machine computes it. -/
abbrev appendAddress (m : Memory) (last : Nat) : Nat := ptrAdvance last (size m last)

theorem chunkAt_append_new (hReq : req < 4294967296) (hLast : last < 4294967296)
    (hApart : Apart last 13 (appendAddress m last) 13) :
    chunkAt (appendChunk m req last) (appendAddress m last) = ⟨last, 0, req, true⟩ := by
  simp only [appendChunk]
  rw [chunkAt_setSize, chunkAt_setUsed, chunkAt_setPrev,
    chunkAt_congr (sameOn_setNext _ hApart), chunkAt_clearChunk, Nat.mod_eq_of_lt hReq,
    Nat.mod_eq_of_lt hLast]

theorem chunkAt_append_last (hApart : Apart (appendAddress m last) 13 last 13) :
    chunkAt (appendChunk m req last) last =
      { chunkAt m last with next := appendAddress m last } := by
  have hLt : appendAddress m last < 4294967296 := Nat.mod_lt _ (by decide)
  simp only [appendChunk]
  rw [chunkAt_congr (sameOn_setSize _ hApart), chunkAt_congr (sameOn_setUsed _ hApart),
    chunkAt_congr (sameOn_setPrev _ hApart), chunkAt_setNext,
    chunkAt_congr (sameOn_clearChunk hApart), Nat.mod_eq_of_lt hLt]

theorem chunkAt_append_of_apart (hLast : Apart last 13 d 13)
    (hNew : Apart (appendAddress m last) 13 d 13) :
    chunkAt (appendChunk m req last) d = chunkAt m d := by
  simp only [appendChunk]
  rw [chunkAt_congr (sameOn_setSize _ hNew), chunkAt_congr (sameOn_setUsed _ hNew),
    chunkAt_congr (sameOn_setPrev _ hNew), chunkAt_congr (sameOn_setNext _ hLast),
    chunkAt_congr (sameOn_clearChunk hNew)]

theorem chunkAt_appendChunk_new (hReq : req < 4294967296)
    (hRoom : last + size m last + 13 ≤ 4294967296) (hGap : 13 ≤ size m last) :
    chunkAt (appendChunk m req last) (last + size m last) = ⟨last, 0, req, true⟩ := by
  have hLoc : appendAddress m last = last + size m last := ptrAdvance_of_lt (by omega)
  have hApart : Apart last 13 (appendAddress m last) 13 := apart_of_le (by omega) (by omega)
  exact hLoc ▸ chunkAt_append_new hReq (by omega) hApart

theorem chunkAt_appendChunk_last (hRoom : last + size m last + 13 ≤ 4294967296)
    (hGap : 13 ≤ size m last) :
    chunkAt (appendChunk m req last) last =
      { chunkAt m last with next := last + size m last } := by
  have hLoc : appendAddress m last = last + size m last := ptrAdvance_of_lt (by omega)
  have hApart : Apart (appendAddress m last) 13 last 13 := apart_of_ge (by omega) (by omega)
  exact hLoc ▸ chunkAt_append_last hApart

theorem chunkAt_appendChunk_of_apart (hRoom : last + size m last + 13 ≤ 4294967296)
    (hLast : Apart last 13 d 13) (hNew : Apart (last + size m last) 13 d 13) :
    chunkAt (appendChunk m req last) d = chunkAt m d := by
  have hLoc : appendAddress m last = last + size m last := ptrAdvance_of_lt (by omega)
  exact chunkAt_append_of_apart hLast (hLoc ▸ hNew)

end Malloc

/-! ## Headers after the two consolidations of `__free_big` -/

section Free

variable {m : Memory} {c d t u : Nat}

theorem consolidateForwards_of_not (h : ¬ (next m c ≠ 0 ∧ used m (next m c) = false)) :
    consolidateForwards m c = m := if_neg h

theorem consolidateBackwards_of_not (h : ¬ (prev m c ≠ 0 ∧ used m (prev m c) = false)) :
    consolidateBackwards m c = m := if_neg h

/-- Merging `c` with the free chunk `t` behind it, which leads on to `u`. -/
theorem consolidateForwards_eq (hNext : next m c = t) (hne : t ≠ 0) (hFree : used m t = false)
    (hu : next m t = u) (hct : Apart c 13 t 13) :
    consolidateForwards m c =
      let m' := if u ≠ 0 then setPrev (setNext m c u) u c else setNext m c u
      setSize m' c (size m' c + (size m' t + 13)) := by
  have hu' : next (setNext m c u) t = u :=
    (next_of_chunkAt (chunkAt_congr (sameOn_setNext u hct))).trans hu
  unfold consolidateForwards
  simp only [hNext, hFree, hu, hu', ne_eq, hne, not_false_eq_true, and_self, if_true]

theorem chunkAt_consolidateForwards (hNext : next m c = t) (hne : t ≠ 0)
    (hFree : used m t = false) (hu : next m t = u) (hct : Apart c 13 t 13)
    (hcu : u ≠ 0 → Apart c 13 u 13 ∧ Apart u 13 t 13) :
    chunkAt (consolidateForwards m c) c =
      { chunkAt m c with
        next := u, size := (size m c + (size m t + 13)) % 4294967296 } := by
  have huLt : u % 4294967296 = u := Nat.mod_eq_of_lt (hu ▸ load32_lt _ _)
  have hAt : ∀ m', chunkAt m' c = chunkAt (setNext m c u) c → chunkAt m' t = chunkAt m t →
      chunkAt (setSize m' c (size m' c + (size m' t + 13))) c =
        { chunkAt m c with
          next := u, size := (size m c + (size m t + 13)) % 4294967296 } := by
    intro m' hc ht
    rw [chunkAt_setNext, huLt] at hc
    have hcSize : size m' c = size m c := size_of_chunkAt hc
    have htSize : size m' t = size m t := size_of_chunkAt ht
    rw [chunkAt_setSize, hc, hcSize, htSize]
  rw [consolidateForwards_eq hNext hne hFree hu hct]
  by_cases hz : u = 0
  · simp only [hz, ne_eq, not_true_eq_false, if_false]
    subst hz
    exact hAt _ rfl (chunkAt_congr (sameOn_setNext _ hct))
  · simp only [ne_eq, hz, not_false_eq_true, if_true]
    exact hAt _ (chunkAt_congr (sameOn_setPrev _ (hcu hz).1.symm))
      ((chunkAt_congr (sameOn_setPrev _ (hcu hz).2)).trans
        (chunkAt_congr (sameOn_setNext _ hct)))

theorem chunkAt_consolidateForwards_next (hNext : next m c = t) (hne : t ≠ 0)
    (hFree : used m t = false) (hu : next m t = u) (hct : Apart c 13 t 13) (hz : u ≠ 0)
    (hcu : Apart c 13 u 13) (hc : c < 4294967296) :
    chunkAt (consolidateForwards m c) u = { chunkAt m u with prev := c } := by
  rw [consolidateForwards_eq hNext hne hFree hu hct]
  simp only [ne_eq, hz, not_false_eq_true, if_true]
  rw [chunkAt_congr (sameOn_setSize _ hcu), chunkAt_setPrev,
    chunkAt_congr (sameOn_setNext _ hcu), Nat.mod_eq_of_lt hc]

theorem chunkAt_consolidateForwards_of_apart (hNext : next m c = t) (hne : t ≠ 0)
    (hFree : used m t = false) (hu : next m t = u) (hct : Apart c 13 t 13)
    (hcd : Apart c 13 d 13) (hud : u ≠ 0 → Apart u 13 d 13) :
    chunkAt (consolidateForwards m c) d = chunkAt m d := by
  rw [consolidateForwards_eq hNext hne hFree hu hct]
  by_cases hz : u = 0
  · simp only [hz, ne_eq, not_true_eq_false, if_false]
    rw [chunkAt_congr (sameOn_setSize _ hcd), chunkAt_congr (sameOn_setNext _ hcd)]
  · simp only [ne_eq, hz, not_false_eq_true, if_true]
    rw [chunkAt_congr (sameOn_setSize _ hcd), chunkAt_congr (sameOn_setPrev _ (hud hz)),
      chunkAt_congr (sameOn_setNext _ hcd)]

/-- Letting `c` take over from the free chunk `t` before it, which is led to from `u`. -/
theorem consolidateBackwards_eq (hPrev : prev m c = t) (hne : t ≠ 0) (hFree : used m t = false)
    (hu : prev m t = u) (hct : Apart c 13 t 13) :
    consolidateBackwards m c =
      let m' := if u ≠ 0 then setNext (setPrev m c u) u c else setPrev m c u
      setSize m' c (size m' c + (size m' t + 13)) := by
  have hu' : prev (setPrev m c u) t = u :=
    (prev_of_chunkAt (chunkAt_congr (sameOn_setPrev u hct))).trans hu
  unfold consolidateBackwards
  simp only [hPrev, hFree, hu, hu', ne_eq, hne, not_false_eq_true, and_self, if_true]

theorem chunkAt_consolidateBackwards (hPrev : prev m c = t) (hne : t ≠ 0)
    (hFree : used m t = false) (hu : prev m t = u) (hct : Apart c 13 t 13)
    (hcu : u ≠ 0 → Apart c 13 u 13 ∧ Apart u 13 t 13) :
    chunkAt (consolidateBackwards m c) c =
      { chunkAt m c with
        prev := u, size := (size m c + (size m t + 13)) % 4294967296 } := by
  have huLt : u % 4294967296 = u := Nat.mod_eq_of_lt (hu ▸ load32_lt _ _)
  have hAt : ∀ m', chunkAt m' c = chunkAt (setPrev m c u) c → chunkAt m' t = chunkAt m t →
      chunkAt (setSize m' c (size m' c + (size m' t + 13))) c =
        { chunkAt m c with
          prev := u, size := (size m c + (size m t + 13)) % 4294967296 } := by
    intro m' hc ht
    rw [chunkAt_setPrev, huLt] at hc
    have hcSize : size m' c = size m c := size_of_chunkAt hc
    have htSize : size m' t = size m t := size_of_chunkAt ht
    rw [chunkAt_setSize, hc, hcSize, htSize]
  rw [consolidateBackwards_eq hPrev hne hFree hu hct]
  by_cases hz : u = 0
  · simp only [hz, ne_eq, not_true_eq_false, if_false]
    subst hz
    exact hAt _ rfl (chunkAt_congr (sameOn_setPrev _ hct))
  · simp only [ne_eq, hz, not_false_eq_true, if_true]
    exact hAt _ (chunkAt_congr (sameOn_setNext _ (hcu hz).1.symm))
      ((chunkAt_congr (sameOn_setNext _ (hcu hz).2)).trans
        (chunkAt_congr (sameOn_setPrev _ hct)))

theorem chunkAt_consolidateBackwards_prev (hPrev : prev m c = t) (hne : t ≠ 0)
    (hFree : used m t = false) (hu : prev m t = u) (hct : Apart c 13 t 13) (hz : u ≠ 0)
    (hcu : Apart c 13 u 13) (hc : c < 4294967296) :
    chunkAt (consolidateBackwards m c) u = { chunkAt m u with next := c } := by
  rw [consolidateBackwards_eq hPrev hne hFree hu hct]
  simp only [ne_eq, hz, not_false_eq_true, if_true]
  rw [chunkAt_congr (sameOn_setSize _ hcu), chunkAt_setNext,
    chunkAt_congr (sameOn_setPrev _ hcu), Nat.mod_eq_of_lt hc]

theorem chunkAt_consolidateBackwards_of_apart (hPrev : prev m c = t) (hne : t ≠ 0)
    (hFree : used m t = false) (hu : prev m t = u) (hct : Apart c 13 t 13)
    (hcd : Apart c 13 d 13) (hud : u ≠ 0 → Apart u 13 d 13) :
    chunkAt (consolidateBackwards m c) d = chunkAt m d := by
  rw [consolidateBackwards_eq hPrev hne hFree hu hct]
  by_cases hz : u = 0
  · simp only [hz, ne_eq, not_true_eq_false, if_false]
    rw [chunkAt_congr (sameOn_setSize _ hcd), chunkAt_congr (sameOn_setPrev _ hcd)]
  · simp only [ne_eq, hz, not_false_eq_true, if_true]
    rw [chunkAt_congr (sameOn_setSize _ hcd), chunkAt_congr (sameOn_setNext _ (hud hz)),
      chunkAt_congr (sameOn_setPrev _ hcd)]

end Free

end Juos.Kmm
