import Juos.Kmm.Thread

/-!
# What consolidation does to the list

`Merged m m' cs cs' c` relates the heap before and after a consolidation of the free chunk `c`:
`cs'` is `cs` with free chunks taken out, `c` itself stays, flags and sizes of the others are
kept, and a successor only moves up. Both consolidations satisfy it on every list of chunks
(`merged_consolidateForwards`, `merged_consolidateBackwards`).

Taking over from the free chunk before `c` is not symmetric to merging with the one behind it:
when that chunk has a null back link, nothing leads past it, so it stays in the list and only
the back link of `c` is cut.
-/

namespace Juos.Kmm

open Machine

structure Merged (m m' : Memory) (cs cs' : List Nat) (c : Nat) : Prop where
  chunks : Chunks m' cs'
  head_eq : cs'.head? = cs.head?
  sub : ∀ d ∈ cs', d ∈ cs
  keep : ∀ d ∈ cs, d ∉ cs' → used m d = false ∧ d ≠ c
  used_eq : ∀ d ∈ cs', used m' d = used m d
  size_eq : ∀ d ∈ cs', d ≠ c → size m' d = size m d
  next_eq : ∀ d ∈ cs', d ≠ c →
    next m' d = next m d ∨ (next m d ≠ 0 ∧ next m d ≤ next m' d)

variable {m m' : Memory} {cs pre post : List Nat} {c d t u : Nat}

theorem Merged.refl (h : Chunks m cs) (c : Nat) : Merged m m cs cs c where
  chunks := h
  head_eq := rfl
  sub _ hd := hd
  keep _ hd hNot := absurd hd hNot
  used_eq _ _ := rfl
  size_eq _ _ _ := rfl
  next_eq _ _ _ := Or.inl rfl

theorem Merged.trans {m₁ m₂ m₃ : Memory} {cs₁ cs₂ cs₃ : List Nat}
    (h₁ : Merged m₁ m₂ cs₁ cs₂ c) (h₂ : Merged m₂ m₃ cs₂ cs₃ c) : Merged m₁ m₃ cs₁ cs₃ c where
  chunks := h₂.chunks
  head_eq := h₂.head_eq.trans h₁.head_eq
  sub d hd := h₁.sub d (h₂.sub d hd)
  keep d hd hNot := by
    by_cases hMid : d ∈ cs₂
    · obtain ⟨hFree, hne⟩ := h₂.keep d hMid hNot
      exact ⟨(h₁.used_eq d hMid).symm.trans hFree, hne⟩
    · exact h₁.keep d hd hMid
  used_eq d hd := (h₂.used_eq d hd).trans (h₁.used_eq d (h₂.sub d hd))
  size_eq d hd hne := (h₂.size_eq d hd hne).trans (h₁.size_eq d (h₂.sub d hd) hne)
  next_eq d hd hne := by
    rcases h₁.next_eq d (h₂.sub d hd) hne with he | ⟨hz, hle⟩
    · rw [← he]
      exact h₂.next_eq d hd hne
    · rcases h₂.next_eq d hd hne with he | ⟨_, hle'⟩
      · exact Or.inr ⟨hz, hle.trans_eq he.symm⟩
      · exact Or.inr ⟨hz, hle.trans hle'⟩

/-- A shorter list keeps its order and its place. -/
theorem Chunks.of_thread {cs' : List Nat} (h : Chunks m cs) (hSub : cs'.Sublist cs)
    (hThread : Thread m' cs') : Chunks m' cs' :=
  ⟨.of_threaded hThread.toThreaded (h.sorted.sublist hSub), fun c hc => h.fits c (hSub.subset hc)⟩

theorem Chunks.gaps (h : Chunks m (pre ++ c :: t :: post)) :
    (∀ d ∈ pre, d + 13 ≤ c) ∧ c + 13 ≤ t ∧ ∀ d ∈ post, t + 13 ≤ d := by
  obtain ⟨-, hBack, hCross⟩ := List.pairwise_append.mp h.sorted
  obtain ⟨hc, hTail⟩ := List.pairwise_cons.mp hBack
  exact ⟨fun d hd => hCross d hd c (by simp), hc t (by simp), (List.pairwise_cons.mp hTail).1⟩

/-! ## Forwards -/

/-- Merging with a free chunk behind takes that chunk out of the list. -/
theorem merged_forwards (h : Chunks m (pre ++ c :: t :: post)) (hFree : used m t = false) :
    Merged m (consolidateForwards m c) (pre ++ c :: t :: post) (pre ++ c :: post) c := by
  have hMerge := forwardMerge h.thread hFree
  have hSub := Threaded.sublist_unlink pre post c t
  refine ⟨h.of_thread hSub (hMerge.thread h.thread), ?_, fun d hd => hSub.subset hd, ?_, ?_, ?_, ?_⟩
  · cases pre <;> rfl
  · intro d hd hNot
    obtain ⟨rfl, hdc⟩ := Threaded.eq_of_unlinked hd hNot
    exact ⟨hFree, hdc⟩
  · intro d hd
    exact hMerge.used_eq d (hSub.subset hd)
  · intro d hd hdc
    exact hMerge.size_eq d (hSub.subset hd) hdc
  · intro d hd hdc
    exact Or.inl (hMerge.next_eq d (hSub.subset hd) hdc)

theorem merged_consolidateForwards (h : Chunks m cs) (hc : c ∈ cs) :
    ∃ cs', Merged m (consolidateForwards m c) cs cs' c := by
  by_cases hCond : next m c ≠ 0 ∧ used m (next m c) = false
  · obtain ⟨pre, post, rfl⟩ := List.append_of_mem hc
    cases post with
    | nil => exact absurd (by simpa using h.next_of_split) hCond.1
    | cons t post =>
      have ht : next m c = t := by simpa using h.next_of_split
      exact ⟨_, merged_forwards h (ht ▸ hCond.2)⟩
  · rw [consolidateForwards_of_not hCond]
    exact ⟨cs, .refl h c⟩

/-! ## Backwards -/

/-- When the free chunk before has a null back link, only a back link changes. -/
theorem merged_backwards_cut (h : Chunks m (pre ++ t :: c :: post)) (hFree : used m t = false)
    (hPrev : prev m c = t) (hCut : prev m t = 0) :
    Merged m (consolidateBackwards m c) (pre ++ t :: c :: post) (pre ++ t :: c :: post) c := by
  have hMerge := backwardMerge h.thread hFree hPrev
  refine ⟨h.of_thread (.refl _) (hMerge.thread_cut h.thread hCut), rfl, fun _ hd => hd,
    fun d hd hNot => absurd hd hNot, hMerge.used_eq, hMerge.size_eq, ?_⟩
  intro d hd hdc
  refine Or.inl (hMerge.next_eq d hd ?_)
  rw [hCut]
  exact (h.pos d hd).ne'

/-- When it has a back link, the free chunk before is taken out of the list. -/
theorem merged_backwards_unlink (h : Chunks m (pre ++ u :: t :: c :: post))
    (hFree : used m t = false) (hPrev : prev m c = t) (hBack : prev m t = u) :
    Merged m (consolidateBackwards m c) (pre ++ u :: t :: c :: post) (pre ++ u :: c :: post)
      c := by
  have hSplit : Chunks m ((pre ++ [u]) ++ t :: c :: post) := by simpa using h
  have hMerge : BackwardMerge m (consolidateBackwards m c) (pre ++ u :: t :: c :: post) c t := by
    simpa using backwardMerge hSplit.thread hFree hPrev
  have hSub := Threaded.sublist_unlink pre (c :: post) u t
  have htc := hSplit.gaps.2.1
  have hut : next m u = t := by simpa using h.next_of_split
  have hz : prev m t ≠ 0 := hBack ▸ (h.pos u (by simp)).ne'
  refine ⟨h.of_thread hSub (hMerge.thread_unlink h.thread hBack), ?_, fun d hd => hSub.subset hd,
    ?_, ?_, ?_, ?_⟩
  · cases pre <;> rfl
  · intro d hd hNot
    obtain ⟨rfl, -⟩ := Threaded.eq_of_unlinked hd hNot
    exact ⟨hFree, by omega⟩
  · intro d hd
    exact hMerge.used_eq d (hSub.subset hd)
  · intro d hd hdc
    exact hMerge.size_eq d (hSub.subset hd) hdc
  · intro d hd hdc
    by_cases hdu : d = u
    · subst hdu
      have hUp : next (consolidateBackwards m c) d = c := hBack ▸ hMerge.next_prev hz
      rw [hUp, hut]
      exact Or.inr ⟨(h.pos t (by simp)).ne', by omega⟩
    · exact Or.inl (hMerge.next_eq d (hSub.subset hd) (hBack ▸ hdu))

theorem merged_consolidateBackwards (h : Chunks m cs) (hc : c ∈ cs) :
    ∃ cs', Merged m (consolidateBackwards m c) cs cs' c := by
  by_cases hCond : prev m c ≠ 0 ∧ used m (prev m c) = false
  · obtain ⟨pre, post, rfl⟩ := List.append_of_mem hc
    obtain ⟨pre, rfl⟩ := h.split_of_prev hCond.1
    have hSplit : Chunks m (pre ++ prev m c :: c :: post) := by simpa using h
    rw [show pre ++ [prev m c] ++ c :: post = pre ++ prev m c :: c :: post by simp]
    by_cases hCut : prev m (prev m c) = 0
    · exact ⟨_, merged_backwards_cut hSplit hCond.2 rfl hCut⟩
    · obtain ⟨pre, rfl⟩ := hSplit.split_of_prev hCut
      have hLong : Chunks m (pre ++ prev m (prev m c) :: prev m c :: c :: post) := by
        simpa using hSplit
      rw [show pre ++ [prev m (prev m c)] ++ prev m c :: c :: post =
        pre ++ prev m (prev m c) :: prev m c :: c :: post by simp]
      exact ⟨_, merged_backwards_unlink hLong hCond.2 rfl rfl⟩
  · rw [consolidateBackwards_of_not hCond]
    exact ⟨cs, .refl h c⟩

end Juos.Kmm
