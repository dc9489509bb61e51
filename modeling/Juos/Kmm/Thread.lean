import Juos.Kmm.Walk
import Mathlib.Data.List.Nodup

/-!
# Chunks in any order of addresses

`Thread m cs` says that the chunk headers form one linked list `cs` and do not overlap. The
addresses need not increase: a chunk that is appended may come to lie anywhere. The two halves of
`__free_big` are described by the fields they change (`ForwardMerge`, `BackwardMerge`), and
`Spliced` says what both do to the list: free chunks are taken out, and the flags of the others
stay.
-/

namespace Juos.Kmm

open Machine

structure Thread (m : Memory) (cs : List Nat) : Prop extends Threaded (next m) (prev m) cs where
  nodup : cs.Nodup
  apart : ∀ c ∈ cs, ∀ d ∈ cs, c ≠ d → Apart c 13 d 13
  lt : ∀ c ∈ cs, c < 4294967296

variable {m m' : Memory} {cs pre post : List Nat} {c d t : Nat}

/-- The header of a chunk that a consolidation leaves alone. -/
theorem header_eq (h : chunkAt m' d = chunkAt m d) :
    prev m' d = prev m d ∧ next m' d = next m d ∧ size m' d = size m d ∧ used m' d = used m d :=
  ⟨prev_of_chunkAt h, next_of_chunkAt h, size_of_chunkAt h,
    used_of_chunkAt h⟩

theorem mem_middle : d ∈ pre ++ c :: post ↔ d = c ∨ d ∈ pre ++ post := by
  rw [List.perm_middle.mem_iff, List.mem_cons]

theorem Chunks.thread (h : Chunks m cs) : Thread m cs where
  toThreaded := h.threaded
  nodup := h.sorted.imp fun hLe => by omega
  apart _ hc _ hd hne := h.header_apart hc hd hne
  lt _ hc := h.lt hc

namespace Thread

/-- Only the headers matter. -/
theorem congr (h : Thread m cs) (hNext : ∀ c ∈ cs, next m' c = next m c)
    (hPrev : ∀ c ∈ cs, prev m' c = prev m c ∨ prev m' c = 0) : Thread m' cs :=
  ⟨h.toThreaded.congr hNext hPrev, h.nodup, h.apart, h.lt⟩

theorem mem_ne (h : Thread m (pre ++ c :: post)) (hd : d ∈ pre ++ post) :
    d ∈ pre ++ c :: post ∧ d ≠ c := by
  refine ⟨mem_middle.mpr (Or.inr hd), ?_⟩
  rintro rfl
  exact (List.nodup_middle.mp h.nodup).notMem hd

theorem next_ne (h : Thread m cs) (hc : c ∈ cs) (hz : next m c ≠ 0) :
    next m c ∈ cs ∧ next m c ≠ c := by
  obtain ⟨pre, post, rfl⟩ := List.append_of_mem hc
  cases post with
  | nil => exact absurd h.next_of_split hz
  | cons n post =>
    have hn : next m c = n := by simpa using h.next_of_split
    have hMem : n ∈ pre ++ n :: post := by simp
    rw [hn]
    exact h.mem_ne hMem

theorem prev_ne (h : Thread m cs) (hc : c ∈ cs) (hz : prev m c ≠ 0) :
    prev m c ∈ cs ∧ prev m c ≠ c := by
  obtain ⟨pre, post, rfl⟩ := List.append_of_mem hc
  obtain ⟨pre', hEq⟩ := h.split_of_prev hz
  have hMem : prev m c ∈ pre ++ post := by simp [hEq]
  exact h.mem_ne hMem

theorem ne_of_split (h : Thread m (pre ++ c :: t :: post)) :
    c ≠ t ∧ c ∉ pre ∧ c ∉ post ∧ t ∉ pre ∧ t ∉ post := by
  have hNodup := h.nodup
  simp only [List.nodup_append, List.nodup_cons, List.mem_cons, not_or] at hNodup
  obtain ⟨-, ⟨⟨hct, hcPost⟩, htPost, -⟩, hPre⟩ := hNodup
  exact ⟨hct, fun hc => hPre c hc c (by simp) rfl, hcPost,
    fun ht => hPre t ht t (by simp) rfl, htPost⟩

theorem chunkAt_mark (h : Thread m cs) (hc : c ∈ cs) (hd : d ∈ cs) (hne : d ≠ c) :
    chunkAt (setUsed m c false) d = chunkAt m d :=
  chunkAt_congr (sameOn_setUsed false (h.apart c hc d hd hne.symm))

theorem links_mark (h : Thread m cs) (hc : c ∈ cs) (hd : d ∈ cs) :
    prev (setUsed m c false) d = prev m d ∧ next (setUsed m c false) d = next m d ∧
      size (setUsed m c false) d = size m d := by
  by_cases hne : d = c
  · subst hne
    have hSelf := chunkAt_setUsed m d false
    exact ⟨prev_of_chunkAt hSelf, next_of_chunkAt hSelf, size_of_chunkAt hSelf⟩
  · obtain ⟨hPrev, hNext, hSize, -⟩ := header_eq (h.chunkAt_mark hc hd hne)
    exact ⟨hPrev, hNext, hSize⟩

theorem used_mark (h : Thread m cs) (hc : c ∈ cs) (hd : d ∈ cs) (hne : d ≠ c) :
    used (setUsed m c false) d = used m d :=
  (header_eq (h.chunkAt_mark hc hd hne)).2.2.2

/-- The list after `c` is marked free. -/
theorem mark (h : Thread m cs) (hc : c ∈ cs) : Thread (setUsed m c false) cs :=
  h.congr (fun _ hd => (h.links_mark hc hd).2.1) fun _ hd => Or.inl (h.links_mark hc hd).1

end Thread

/-! ## The fields that merging changes -/

/-- What `__free_big` does to the memory. -/
def freed (m : Memory) (c : Nat) : Memory :=
  consolidateBackwards (consolidateForwards (setUsed m c false) c) c

theorem freeBig_snd (hp : Heap) (m : Memory) (hc : c < 4294967296) :
    (freeBig hp m (ptrAdvance c sizeofBigChunk)).2 = freed m c := by
  have hChunk : ptrSub (ptrAdvance c sizeofBigChunk) sizeofBigChunk = c := by
    unfold ptrSub ptrAdvance sizeofBigChunk
    omega
  simp only [freeBig, hChunk, freed]

/-- `c` takes over what follows the chunk `t` behind it. -/
structure ForwardMerge (m m' : Memory) (cs : List Nat) (c t : Nat) : Prop where
  self : chunkAt m' c = { chunkAt m c with
    next := next m t, size := (size m c + (size m t + 13)) % 4294967296 }
  next_eq : ∀ d ∈ cs, d ≠ c → next m' d = next m d
  size_eq : ∀ d ∈ cs, d ≠ c → size m' d = size m d
  used_eq : ∀ d ∈ cs, used m' d = used m d
  prev_eq : ∀ d ∈ cs, d ≠ next m t → prev m' d = prev m d
  prev_next : next m t ≠ 0 → prev m' (next m t) = c

/-- `c` takes over what leads to the chunk `t` before it. -/
structure BackwardMerge (m m' : Memory) (cs : List Nat) (c t : Nat) : Prop where
  self : chunkAt m' c = { chunkAt m c with
    prev := prev m t, size := (size m c + (size m t + 13)) % 4294967296 }
  prev_eq : ∀ d ∈ cs, d ≠ c → prev m' d = prev m d
  size_eq : ∀ d ∈ cs, d ≠ c → size m' d = size m d
  used_eq : ∀ d ∈ cs, used m' d = used m d
  next_eq : ∀ d ∈ cs, d ≠ prev m t → next m' d = next m d
  next_prev : prev m t ≠ 0 → next m' (prev m t) = c

/-- The chunk behind `t`, if there is one, is another chunk of the list. -/
theorem Thread.next_next (h : Thread m (pre ++ c :: t :: post)) (hz : next m t ≠ 0) :
    next m t ∈ pre ++ c :: t :: post ∧ next m t ≠ c ∧ next m t ≠ t := by
  have hSplit : Thread m ((pre ++ [c]) ++ t :: post) := by simpa using h
  obtain ⟨-, -, hc, -, ht⟩ := h.ne_of_split
  cases post with
  | nil => exact absurd hSplit.next_of_split hz
  | cons u post =>
    have hu : next m t = u := by simpa using hSplit.next_of_split
    rw [hu]
    exact ⟨by simp, fun hEq => hc (hEq ▸ List.mem_cons_self),
      fun hEq => ht (hEq ▸ List.mem_cons_self)⟩

theorem forwardMerge (h : Thread m (pre ++ c :: t :: post)) (hFree : used m t = false) :
    ForwardMerge m (consolidateForwards m c) (pre ++ c :: t :: post) c t := by
  have hNext : next m c = t := by simpa using h.next_of_split
  have hne : t ≠ 0 := (h.pos t (by simp)).ne'
  have hct : Apart c 13 t 13 := h.apart c (by simp) t (by simp) h.ne_of_split.1
  have hcu : next m t ≠ 0 → Apart c 13 (next m t) 13 := fun hz =>
    h.apart c (by simp) _ (h.next_next hz).1 (h.next_next hz).2.1.symm
  have hSelf := chunkAt_consolidateForwards hNext hne hFree rfl hct fun hz =>
    ⟨hcu hz, h.apart _ (h.next_next hz).1 t (by simp) (h.next_next hz).2.2⟩
  have hThere (hz : next m t ≠ 0) :=
    chunkAt_consolidateForwards_next hNext hne hFree rfl hct hz (hcu hz) (h.lt c (by simp))
  have hAt : ∀ d ∈ pre ++ c :: t :: post, d ≠ c → ∃ p,
      chunkAt (consolidateForwards m c) d = { chunkAt m d with prev := p } ∧
        (d ≠ next m t → p = prev m d) := by
    intro d hd hdc
    by_cases hdu : d = next m t
    · have hz : next m t ≠ 0 := hdu ▸ (h.pos d hd).ne'
      exact ⟨c, hdu ▸ hThere hz, fun hne => absurd hdu hne⟩
    · exact ⟨prev m d, chunkAt_consolidateForwards_of_apart hNext hne hFree rfl hct
        (h.apart c (by simp) d hd hdc.symm)
        (fun hz => h.apart _ (h.next_next hz).1 d hd (Ne.symm hdu)), fun _ => rfl⟩
  refine ⟨hSelf, ?_, ?_, ?_, ?_, fun hz => prev_of_chunkAt (hThere hz)⟩
  · intro d hd hdc
    obtain ⟨p, hp, -⟩ := hAt d hd hdc
    exact next_of_chunkAt hp
  · intro d hd hdc
    obtain ⟨p, hp, -⟩ := hAt d hd hdc
    exact size_of_chunkAt hp
  · intro d hd
    by_cases hdc : d = c
    · subst hdc
      exact used_of_chunkAt hSelf
    · obtain ⟨p, hp, -⟩ := hAt d hd hdc
      exact used_of_chunkAt hp
  · intro d hd hdu
    by_cases hdc : d = c
    · subst hdc
      exact prev_of_chunkAt hSelf
    · obtain ⟨p, hp, hEq⟩ := hAt d hd hdc
      exact (prev_of_chunkAt hp).trans (hEq hdu)

/-- The chunk that leads to `t`, if there is one, is another chunk of the list. -/
theorem Thread.prev_prev (h : Thread m (pre ++ t :: c :: post)) (hz : prev m t ≠ 0) :
    prev m t ∈ pre ++ t :: c :: post ∧ prev m t ≠ c ∧ prev m t ≠ t := by
  obtain ⟨-, ht, -, hc, -⟩ := h.ne_of_split
  obtain ⟨pre, rfl⟩ := h.split_of_prev hz
  exact ⟨by simp, fun hEq => hc (List.mem_append_right _ (List.mem_singleton.mpr hEq.symm)),
    fun hEq => ht (List.mem_append_right _ (List.mem_singleton.mpr hEq.symm))⟩

theorem backwardMerge (h : Thread m (pre ++ t :: c :: post)) (hFree : used m t = false)
    (hPrev : prev m c = t) :
    BackwardMerge m (consolidateBackwards m c) (pre ++ t :: c :: post) c t := by
  have hne : t ≠ 0 := (h.pos t (by simp)).ne'
  have hct : Apart c 13 t 13 := h.apart c (by simp) t (by simp) h.ne_of_split.1.symm
  have hcu : prev m t ≠ 0 → Apart c 13 (prev m t) 13 := fun hz =>
    h.apart c (by simp) _ (h.prev_prev hz).1 (h.prev_prev hz).2.1.symm
  have hSelf := chunkAt_consolidateBackwards hPrev hne hFree rfl hct fun hz =>
    ⟨hcu hz, h.apart _ (h.prev_prev hz).1 t (by simp) (h.prev_prev hz).2.2⟩
  have hThere (hz : prev m t ≠ 0) :=
    chunkAt_consolidateBackwards_prev hPrev hne hFree rfl hct hz (hcu hz) (h.lt c (by simp))
  have hAt : ∀ d ∈ pre ++ t :: c :: post, d ≠ c → ∃ n,
      chunkAt (consolidateBackwards m c) d = { chunkAt m d with next := n } ∧
        (d ≠ prev m t → n = next m d) := by
    intro d hd hdc
    by_cases hdu : d = prev m t
    · have hz : prev m t ≠ 0 := hdu ▸ (h.pos d hd).ne'
      exact ⟨c, hdu ▸ hThere hz, fun hne => absurd hdu hne⟩
    · exact ⟨next m d, chunkAt_consolidateBackwards_of_apart hPrev hne hFree rfl hct
        (h.apart c (by simp) d hd hdc.symm)
        (fun hz => h.apart _ (h.prev_prev hz).1 d hd (Ne.symm hdu)), fun _ => rfl⟩
  refine ⟨hSelf, ?_, ?_, ?_, ?_, fun hz => next_of_chunkAt (hThere hz)⟩
  · intro d hd hdc
    obtain ⟨n, hn, -⟩ := hAt d hd hdc
    exact prev_of_chunkAt hn
  · intro d hd hdc
    obtain ⟨n, hn, -⟩ := hAt d hd hdc
    exact size_of_chunkAt hn
  · intro d hd
    by_cases hdc : d = c
    · subst hdc
      exact used_of_chunkAt hSelf
    · obtain ⟨n, hn, -⟩ := hAt d hd hdc
      exact used_of_chunkAt hn
  · intro d hd hdu
    by_cases hdc : d = c
    · subst hdc
      exact next_of_chunkAt hSelf
    · obtain ⟨n, hn, hEq⟩ := hAt d hd hdc
      exact (next_of_chunkAt hn).trans (hEq hdu)

/-! ## What merging does to the list -/

theorem Thread.of_sublist (h : Thread m cs) {cs' : List Nat} (hSub : cs'.Sublist cs)
    (hThreaded : Threaded (next m') (prev m') cs') : Thread m' cs' where
  toThreaded := hThreaded
  nodup := h.nodup.sublist hSub
  apart c hc d hd := h.apart c (hSub.subset hc) d (hSub.subset hd)
  lt c hc := h.lt c (hSub.subset hc)

theorem ForwardMerge.thread (h : Thread m (pre ++ c :: t :: post))
    (hMerge : ForwardMerge m m' (pre ++ c :: t :: post) c t) : Thread m' (pre ++ c :: post) := by
  have hSub := Threaded.sublist_unlink pre post c t
  have hSplit : Thread m ((pre ++ [c]) ++ t :: post) := by simpa using h
  have hHead := hSplit.next_of_split
  apply h.of_sublist hSub
  apply h.toThreaded.unlink (next_of_chunkAt hMerge.self)
  · intro n hn
    have hEq : next m t = n := by rw [hHead, Option.mem_def.mp hn, Option.getD_some]
    have hn' : n ∈ pre ++ c :: t :: post := by simp [List.mem_of_head? hn]
    rw [← hEq]
    exact hMerge.prev_next (hEq ▸ (h.pos n hn').ne')
  · intro d hd
    have hd' : d ∈ pre ++ t :: post := mem_middle.mpr (Or.inr hd)
    exact hMerge.next_eq d (h.mem_ne hd').1 (h.mem_ne hd').2
  · intro d hd
    cases post with
    | nil =>
      apply hMerge.prev_eq d (hSub.subset hd)
      have hz : next m t = 0 := hHead
      rw [hz]
      exact (h.pos d (hSub.subset hd)).ne'
    | cons u post =>
      have hu : next m t = u := by simpa using hHead
      have hAway : Thread m ((pre ++ [c, t]) ++ u :: post) := by simpa using h
      have hd' : d ∈ (pre ++ [c, t]) ++ post := by
        simp only [List.tail_cons, List.mem_append, List.mem_cons] at hd ⊢
        tauto
      obtain ⟨hMem, hdu⟩ := hAway.mem_ne hd'
      exact hMerge.prev_eq d (by simpa using hMem) (hu ▸ hdu)

theorem BackwardMerge.thread_unlink {u : Nat} (h : Thread m (pre ++ u :: t :: c :: post))
    (hMerge : BackwardMerge m m' (pre ++ u :: t :: c :: post) c t) (hPrev : prev m t = u) :
    Thread m' (pre ++ u :: c :: post) := by
  have hSplit : Thread m ((pre ++ [u]) ++ t :: c :: post) := by simpa using h
  have hAway : Thread m ((pre ++ [u, t]) ++ c :: post) := by simpa using h
  have hSub := Threaded.sublist_unlink pre (c :: post) u t
  have hz : prev m t ≠ 0 := hPrev ▸ (h.pos u (by simp)).ne'
  have htc : next m t = c := by simpa using hSplit.next_of_split
  have hUp : next m' u = c := hPrev ▸ hMerge.next_prev hz
  apply h.of_sublist hSub
  apply h.toThreaded.unlink (hUp.trans htc.symm)
  · intro n hn
    obtain rfl : c = n := by simpa using hn
    exact (prev_of_chunkAt hMerge.self).trans hPrev
  · intro d hd
    have hd' : d ∈ pre ++ t :: c :: post := mem_middle.mpr (Or.inr hd)
    obtain ⟨hMem, hdu⟩ := h.mem_ne hd'
    exact hMerge.next_eq d hMem (hPrev ▸ hdu)
  · intro d hd
    have hd' : d ∈ (pre ++ [u, t]) ++ post := by
      simp only [List.tail_cons, List.mem_append, List.mem_cons] at hd ⊢
      tauto
    obtain ⟨hMem, hdc⟩ := hAway.mem_ne hd'
    exact hMerge.prev_eq d (by simpa using hMem) hdc

theorem BackwardMerge.thread_cut (h : Thread m cs) (hMerge : BackwardMerge m m' cs c t)
    (hPrev : prev m t = 0) : Thread m' cs := by
  apply h.congr
  · intro d hd
    apply hMerge.next_eq d hd
    rw [hPrev]
    exact (h.pos d hd).ne'
  · intro d hd
    by_cases hdc : d = c
    · subst hdc
      exact Or.inr ((prev_of_chunkAt hMerge.self).trans hPrev)
    · exact Or.inl (hMerge.prev_eq d hd hdc)

/-- What the forward half of `__free_big` leaves of a list in which `post` follows `c`. -/
structure SplicedForwards (m m' : Memory) (pre : List Nat) (c : Nat) (post post' : List Nat) :
    Prop where
  thread : Thread m' (pre ++ c :: post')
  sublist : post'.Sublist post
  dropped : ∀ d ∈ post, d ∉ post' → used m d = false
  used_eq : ∀ d ∈ pre ++ c :: post', used m' d = used m d
  next_eq : ∀ d ∈ pre, next m' d = next m d
  prev_eq : prev m' c = prev m c

theorem Thread.forwards (h : Thread m (pre ++ c :: post)) :
    ∃ post', SplicedForwards m (consolidateForwards m c) pre c post post' := by
  by_cases hCond : next m c ≠ 0 ∧ used m (next m c) = false
  · cases post with
    | nil => exact absurd h.next_of_split hCond.1
    | cons t post =>
      have ht : next m c = t := by simpa using h.next_of_split
      have hFree : used m t = false := ht ▸ hCond.2
      have hMerge := forwardMerge h hFree
      have hSub := Threaded.sublist_unlink pre post c t
      refine ⟨post, hMerge.thread h, List.sublist_cons_self t post, ?_, ?_, ?_, ?_⟩
      · intro d hd hNot
        rcases List.mem_cons.mp hd with rfl | hd
        · exact hFree
        · exact absurd hd hNot
      · intro d hd
        exact hMerge.used_eq d (hSub.subset hd)
      · intro d hd
        have hd' : d ∈ pre ++ t :: post := List.mem_append_left _ hd
        exact hMerge.next_eq d (h.mem_ne hd').1 (h.mem_ne hd').2
      · apply hMerge.prev_eq c (by simp)
        intro hEq
        have hz : next m t ≠ 0 := hEq ▸ (h.pos c (by simp)).ne'
        exact (h.next_next hz).2.1 hEq.symm
  · rw [consolidateForwards_of_not hCond]
    exact ⟨post, h, .refl _, fun d hd hNot => absurd hd hNot, fun _ _ => rfl, fun _ _ => rfl, rfl⟩

/-- What the backward half leaves of a list in which `pre` leads to `c`. -/
structure SplicedBackwards (m m' : Memory) (pre pre' : List Nat) (c : Nat) (post : List Nat) :
    Prop where
  thread : Thread m' (pre' ++ c :: post)
  head_eq : (pre' ++ c :: post).head? = (pre ++ c :: post).head?
  sublist : pre'.Sublist pre
  dropped : ∀ d ∈ pre, d ∉ pre' → used m d = false
  used_eq : ∀ d ∈ pre' ++ c :: post, used m' d = used m d

theorem Thread.backwards (h : Thread m (pre ++ c :: post)) :
    ∃ pre', SplicedBackwards m (consolidateBackwards m c) pre pre' c post := by
  by_cases hCond : prev m c ≠ 0 ∧ used m (prev m c) = false
  · obtain ⟨pre, rfl⟩ := h.split_of_prev hCond.1
    have hSplit : Thread m (pre ++ prev m c :: c :: post) := by simpa using h
    have hMerge := backwardMerge hSplit hCond.2 rfl
    by_cases hCut : prev m (prev m c) = 0
    · refine ⟨pre ++ [prev m c], ?_, rfl, .refl _, fun d hd hNot => absurd hd hNot, ?_⟩
      · simpa using hMerge.thread_cut hSplit hCut
      · intro d hd
        exact hMerge.used_eq d (by simpa using hd)
    · obtain ⟨pre, rfl⟩ := hSplit.split_of_prev hCut
      have hLong : Thread m (pre ++ prev m (prev m c) :: prev m c :: c :: post) := by
        simpa using hSplit
      have hMerge' : BackwardMerge m (consolidateBackwards m c)
          (pre ++ prev m (prev m c) :: prev m c :: c :: post) c (prev m c) := by
        simpa using hMerge
      refine ⟨pre ++ [prev m (prev m c)], ?_, ?_, List.sublist_append_left _ _, ?_, ?_⟩
      · simpa using hMerge'.thread_unlink hLong rfl
      · cases pre <;> rfl
      · intro d hd hNot
        rcases List.mem_append.mp hd with hd | hd
        · exact absurd hd hNot
        · rw [List.mem_singleton.mp hd]
          exact hCond.2
      · intro d hd
        apply hMerge'.used_eq
        simp only [List.mem_append, List.mem_cons] at hd ⊢
        tauto
  · rw [consolidateBackwards_of_not hCond]
    exact ⟨pre, h, rfl, .refl _, fun d hd hNot => absurd hd hNot, fun _ _ => rfl⟩

/-! ## The search and the append of `__malloc_big` -/

/-- The search stops at a free chunk of the list, or at its end. -/
theorem Thread.found {req fuel : Nat} {p : Placement} (h : Thread m (pre ++ c :: post))
    (hRun : searchHole m req fuel c = some p) :
    (∃ e ∈ c :: post, p = .hole e ∧ used m e = false) ∨
      ∃ e, (c :: post).getLast? = some e ∧ p = .append e := by
  induction fuel generalizing pre c post with
  | zero => cases hRun
  | succ fuel ih =>
    rw [searchHole] at hRun
    cases post with
    | nil =>
      have hEnd : next m c = 0 := h.next_of_split
      rw [if_pos hEnd] at hRun
      cases hRun
      exact Or.inr ⟨c, rfl, rfl⟩
    | cons n post =>
      have hNext : next m c = n := by simpa using h.next_of_split
      have hne : next m c ≠ 0 := hNext ▸ (h.pos n (by simp)).ne'
      rw [if_neg hne] at hRun
      split_ifs at hRun with hHole
      · cases hRun
        exact Or.inl ⟨c, List.mem_cons_self, rfl, hHole.1⟩
      · rw [hNext] at hRun
        have hLater : Thread m ((pre ++ [c]) ++ n :: post) := by simpa using h
        rcases ih hLater hRun with ⟨e, he, hp, hFree⟩ | ⟨e, he, hp⟩
        · exact Or.inl ⟨e, List.mem_cons_of_mem _ he, hp, hFree⟩
        · exact Or.inr ⟨e, by simpa using he, hp⟩

/-- A chunk appended where it overlaps no header. -/
theorem Thread.append {req last : Nat} (h : Thread m (pre ++ [last])) (hReq : req < 4294967296)
    (hPos : appendAddress m last ≠ 0)
    (hApart : ∀ c ∈ pre ++ [last], Apart (appendAddress m last) 13 c 13) :
    Thread (appendChunk m req last) (pre ++ [last] ++ [appendAddress m last]) := by
  have hLast := hApart last (by simp)
  have hNew := chunkAt_append_new hReq (h.lt last (by simp)) hLast.symm
  have hEnd : chunkAt (appendChunk m req last) last =
      { chunkAt m last with next := appendAddress m last } := chunkAt_append_last hLast
  have hPre : ∀ d ∈ pre, chunkAt (appendChunk m req last) d = chunkAt m d := by
    intro d hd
    have hMem : d ∈ pre ++ [] := by simpa using hd
    exact chunkAt_append_of_apart
      (h.apart last (by simp) d (h.mem_ne hMem).1 (h.mem_ne hMem).2.symm)
      (hApart d (by simp [hd]))
  have hNe : ∀ c ∈ pre ++ [last], c ≠ appendAddress m last := by
    rintro c hc rfl
    exact hApart _ hc 0 (by decide) 0 (by decide) rfl
  constructor
  · refine h.toThreaded.append (Nat.pos_of_ne_zero hPos) (next_of_chunkAt hEnd)
      (next_of_chunkAt hNew) (prev_of_chunkAt hNew) ?_ ?_
    · intro d hd
      exact (header_eq (hPre d hd)).2.1
    · intro d hd
      rcases List.mem_append.mp hd with hd | hd
      · exact (header_eq (hPre d hd)).1
      · rw [List.mem_singleton.mp hd]
        exact prev_of_chunkAt hEnd
  · refine List.nodup_append.mpr ⟨h.nodup, List.pairwise_singleton .., ?_⟩
    intro c hc d hd
    rw [List.mem_singleton.mp hd]
    exact hNe c hc
  · intro c hc d hd hcd
    rcases List.mem_append.mp hc with hc | hc <;> rcases List.mem_append.mp hd with hd | hd
    · exact h.apart c hc d hd hcd
    · rw [List.mem_singleton.mp hd]
      exact (hApart c hc).symm
    · rw [List.mem_singleton.mp hc]
      exact hApart d hd
    · exact absurd ((List.mem_singleton.mp hc).trans (List.mem_singleton.mp hd).symm) hcd
  · intro c hc
    rcases List.mem_append.mp hc with hc | hc
    · exact h.lt c hc
    · rw [List.mem_singleton.mp hc]
      exact Nat.mod_lt _ (by decide)

theorem Thread.used_append {req last : Nat} (h : Thread m (pre ++ [last]))
    (hApart : ∀ c ∈ pre ++ [last], Apart (appendAddress m last) 13 c 13) (hd : d ∈ pre ++ [last]) :
    used (appendChunk m req last) d = used m d := by
  by_cases hdl : d = last
  · subst hdl
    exact used_of_chunkAt (chunkAt_append_last (hApart d hd))
  · exact (header_eq (chunkAt_append_of_apart (h.apart last (by simp) d hd (Ne.symm hdl))
      (hApart d hd))).2.2.2

end Juos.Kmm
