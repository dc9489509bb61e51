import Juos.Kmm.Safety

/-!
# Chunks that tile the heap

`Represented m head cs` is the shape the list of big chunks is meant to have: it is linked in both
directions, and every chunk ends where its successor begins. Three of the six paths break it.
Reusing a hole writes a `size` that counts headers instead of bytes, merging forwards into a chunk
that has a successor adds a header too many, and merging backwards adds the sizes up in the wrong
chunk. As long as a run stays off them the heap is tiled, and no two neighbours are free.
-/

namespace Juos.Kmm

open Machine HeapSystem

/-- The list from `head` ends, leads back the way it came, and each chunk lies where the one
before it ends. -/
structure Represented (m : Memory) (head : Nat) (cs : List Nat) : Prop where
  head_eq : cs.head? = some head
  chain : cs.IsChain fun c n => next m c = n ∧ prev m n = c ∧ c + 13 ≤ n ∧ n = c + size m c
  last : ∀ c ∈ cs.getLast?, next m c = 0
  first : prev m head = 0

/-- The part of the invariant that only these runs keep. A chunk in use is held by somebody,
except that the flag of a chunk which is alone may be anything: nothing has read it yet. -/
structure Tiled (m : Memory) (live : List Block) (cs : List Nat) : Prop where
  tile : cs.IsChain fun c n =>
    next m c = n ∧ prev m n = c ∧ n = c + size m c ∧ (used m c = true ∨ used m n = true)
  held : (∀ c ∈ cs, used m c = true → ∃ b ∈ live, b.ptr = c + 13) ∨ ∃ c, cs = [c]

namespace Tiled

variable {m m' : Memory} {head c req : Nat} {live : List Block} {cs cs' pre : List Nat}

theorem represented (hSpace : Space m head live cs) (h : Tiled m live cs) :
    Represented m head cs where
  head_eq := hSpace.head_eq
  chain := h.tile.imp_of_mem_imp fun c n hc hn hStep => by
    have hne : next m c ≠ 0 := hStep.1 ▸ (hSpace.chunks.pos n hn).ne'
    exact ⟨hStep.1, hStep.2.1, hStep.1 ▸ (hSpace.chunks.next_mem hc hne).2, hStep.2.2.1⟩
  last := hSpace.chunks.last
  first := hSpace.chunks.first head hSpace.head_eq

/-- When nobody holds a big block, the free chunks have become one. -/
theorem eq_single (hSpace : Space m head live cs) (h : Tiled m live cs)
    (hNone : ∀ b ∈ live, b.ptr ≤ head) : cs = [head] := by
  have hHead := hSpace.head_eq
  rcases h.held with hHeld | ⟨c, rfl⟩
  · cases cs with
    | nil => cases hHead
    | cons c cs =>
      obtain rfl : c = head := by simpa using hHead
      cases cs with
      | nil => rfl
      | cons n cs =>
        have hFree : ∀ d ∈ c :: n :: cs, used m d ≠ true := by
          intro d hd hUsed
          obtain ⟨b, hb, hPtr⟩ := hHeld d hd hUsed
          have := hNone b hb
          rcases hSpace.head_le hd with rfl | hLe <;> omega
        obtain ⟨-, -, -, hUsed | hUsed⟩ := (List.isChain_cons_cons.mp h.tile).1
        · exact absurd hUsed (hFree c (by simp))
        · exact absurd hUsed (hFree n (by simp))
  · obtain rfl : c = head := by simpa using hHead
    rfl

/-- Links, sizes and flags are all that matters, so user data may change. -/
theorem congr (h : Tiled m live cs) (hAt : ∀ c ∈ cs, chunkAt m' c = chunkAt m c) :
    Tiled m' live cs where
  tile := h.tile.imp_of_mem_imp fun x y hx hy hStep => by
    obtain ⟨-, hNext, hSize, hUsed⟩ := header_eq (hAt x hx)
    obtain ⟨hPrev, -, -, hUsed'⟩ := header_eq (hAt y hy)
    rw [hNext, hSize, hUsed, hPrev, hUsed']
    exact hStep
  held := h.held.imp_left fun hHeld c hc hUsed =>
    hHeld c hc ((header_eq (hAt c hc)).2.2.2.symm.trans hUsed)

theorem append (hSpace : Space m head live (pre ++ [c])) (h : Tiled m live (pre ++ [c])) {n : Nat}
    (hHolder : ∃ b ∈ live, head < b.ptr) (hGap : 13 ≤ size m c) (hReq : req < 4294967296)
    (hRoom : c + size m c + 13 ≤ 4294967296) :
    Tiled (appendChunk m req c) (⟨c + size m c + 13, n⟩ :: live)
      (pre ++ [c] ++ [c + size m c]) := by
  obtain ⟨hNew, hEnd, hOther⟩ := appended_appendChunk hSpace.chunks hGap hReq hRoom
  have hKept : ∀ d ∈ pre ++ [c], prev (appendChunk m req c) d = prev m d ∧
      used (appendChunk m req c) d = used m d := by
    intro d hd
    rcases List.mem_append.mp hd with hd | hd
    · exact ⟨(header_eq (hOther d hd)).1, (header_eq (hOther d hd)).2.2.2⟩
    · obtain rfl : d = c := by simpa using hd
      exact ⟨prev_of_chunkAt hEnd, used_of_chunkAt hEnd⟩
  refine ⟨List.isChain_append.mpr ⟨?_, .singleton _, ?_⟩, Or.inl ?_⟩
  · apply h.tile.imp_of_mem_imp
    intro x y hx hy hStep
    have hxPre : x ∈ pre := by
      rcases List.mem_append.mp hx with hx | hx
      · exact hx
      · obtain rfl : x = c := by simpa using hx
        have hLast : next m x = 0 := hSpace.chunks.last x (by simp)
        have := hSpace.chunks.pos y hy
        omega
    obtain ⟨-, hNext, hSize, hUsed⟩ := header_eq (hOther x hxPre)
    rw [hNext, hSize, hUsed, (hKept y hy).1, (hKept y hy).2]
    exact hStep
  · intro x hx y hy
    obtain rfl : c = x := by simpa using hx
    obtain rfl : c + size m c = y := by simpa using hy
    have hSize : size (appendChunk m req c) c = size m c := size_of_chunkAt hEnd
    exact ⟨next_of_chunkAt hEnd, prev_of_chunkAt hNew, by rw [hSize],
      Or.inr (used_of_chunkAt hNew)⟩
  · intro d hd hUsed
    rcases List.mem_append.mp hd with hd | hd
    · rw [(hKept d hd).2] at hUsed
      obtain ⟨b, hb, hPtr⟩ : ∃ b ∈ live, b.ptr = d + 13 := by
        rcases h.held with hHeld | ⟨e, he⟩
        · exact hHeld d hd hUsed
        · obtain ⟨b, hb, hBig⟩ := hHolder
          obtain ⟨f, hf, hPtr, -⟩ := hSpace.owner b hb hBig
          rw [he] at hd hf
          obtain rfl := List.mem_singleton.mp hd
          obtain rfl := List.mem_singleton.mp hf
          exact ⟨b, hb, hPtr⟩
      exact ⟨b, List.mem_cons_of_mem _ hb, hPtr⟩
    · obtain rfl : d = c + size m c := by simpa using hd
      exact ⟨_, List.mem_cons_self, rfl⟩

/-- The freed chunk stays in the list, with used neighbours; what lay behind `cs'` is gone. -/
theorem release (hSpace : Space m head live cs) (h : Tiled m live cs) (hPrefix : cs' <+: cs)
    (hc : c ∈ cs') (hOther : ∀ d ∈ cs', d ≠ c → chunkAt m' d = chunkAt m d)
    (hPrev : prev m' c = prev m c) (hFree : used m' c = false)
    (hInner : ∀ n ∈ cs', next m c = n →
      next m' c = next m c ∧ size m' c = size m c ∧ used m n = true)
    (hBefore : prev m c ≠ 0 → used m (prev m c) = true) :
    Tiled m' (live.filter fun b => b.ptr ≠ c + 13) cs' := by
  refine ⟨?_, ?_⟩
  · have hOld := h.tile.infix hPrefix.isInfix
    refine hOld.imp_of_mem_imp fun x y hx hy ⟨hNext, hBack, hSize, hUsed⟩ => ?_
    have hxCs := hPrefix.subset hx
    have hne : next m x ≠ 0 := hNext ▸ (hSpace.chunks.pos y (hPrefix.subset hy)).ne'
    have hxy := (hSpace.chunks.next_mem hxCs hne).2
    have hxPos := hSpace.chunks.pos x hxCs
    by_cases hxc : x = c
    · subst hxc
      obtain ⟨hNext', hSize', hUsed'⟩ := hInner y hy hNext
      obtain ⟨hPrevY, -, -, hUsedY⟩ := header_eq (hOther y hy (by omega))
      rw [hNext', hSize', hPrevY, hUsedY]
      exact ⟨hNext, hBack, hSize, Or.inr hUsed'⟩
    · obtain ⟨-, hNextX, hSizeX, hUsedX⟩ := header_eq (hOther x hx hxc)
      rw [hNextX, hSizeX, hUsedX]
      by_cases hyc : y = c
      · subst hyc
        have hUsedBefore := hBefore (by omega)
        rw [hBack] at hUsedBefore
        exact ⟨hNext, hPrev.trans hBack, hSize, Or.inl hUsedBefore⟩
      · obtain ⟨hPrevY, -, -, hUsedY⟩ := header_eq (hOther y hy hyc)
        rw [hPrevY, hUsedY]
        exact ⟨hNext, hBack, hSize, hUsed⟩
  · rcases h.held with hHeld | ⟨e, rfl⟩
    · apply Or.inl
      intro d hd hUsed
      have hdc : d ≠ c := by
        rintro rfl
        rw [hFree] at hUsed
        cases hUsed
      rw [(header_eq (hOther d hd hdc)).2.2.2] at hUsed
      obtain ⟨b, hb, hPtr⟩ := hHeld d (hPrefix.subset hd) hUsed
      exact ⟨b, List.mem_filter.mpr ⟨hb, by simpa [hPtr] using hdc⟩, hPtr⟩
    · refine Or.inr ⟨c, ?_⟩
      rcases List.prefix_cons_iff.mp hPrefix with rfl | ⟨l, rfl, hl⟩
      · cases hc
      · rw [List.prefix_nil.mp hl] at hc ⊢
        rw [List.mem_singleton.mp hc]

end Tiled

/-- Freeing `c` merges nothing backwards, and forwards at most the last chunk. -/
structure Unmerged (m : Memory) (c : Nat) : Prop where
  before : prev m c ≠ 0 → used m (prev m c) = true
  behind : next m c ≠ 0 → used m (next m c) = false → next m (next m c) = 0

instance (m : Memory) (c : Nat) : Decidable (Unmerged m c) :=
  decidable_of_iff ((prev m c ≠ 0 → used m (prev m c) = true) ∧
    (next m c ≠ 0 → used m (next m c) = false → next m (next m c) = 0))
    ⟨fun h => ⟨h.1, h.2⟩, fun h => ⟨h.1, h.2⟩⟩

namespace Tiled

variable {m : Memory} {head c : Nat} {live : List Block} {cs : List Nat}

/-- What the forward half of `__free_big` leaves, the list `cs'` up to `c` or the whole list: `c` is
free, and the others keep their headers. -/
structure FreedForwards (m m' : Memory) (cs cs' : List Nat) (c : Nat) : Prop where
  merged : Merged (setUsed m c false) m' cs cs' c
  initial : cs' <+: cs
  mem : c ∈ cs'
  other : ∀ d ∈ cs', d ≠ c → chunkAt m' d = chunkAt m d
  prev_eq : prev m' c = prev m c
  free : used m' c = false
  stayed : ∀ n ∈ cs', next m c = n →
    next m' c = next m c ∧ size m' c = size m c ∧ used m n = true

/-- The free chunk behind `c` is the last one, and is merged. -/
theorem freedForwards_last {pre : List Nat} {t : Nat} (hSpace : Space m head live (pre ++ [c, t]))
    (hFree : used m t = false) :
    FreedForwards m (consolidateForwards (setUsed m c false) c) (pre ++ [c, t]) (pre ++ [c]) c := by
  obtain ⟨hMark, hOther⟩ := hSpace.mark_free (by simp : c ∈ pre ++ [c, t])
  have hSelf := chunkAt_setUsed m c false
  obtain ⟨hPre, hct, -⟩ := hSpace.chunks.gaps
  have ht : next m c = t := by simpa using hSpace.chunks.next_of_split
  have hNext : next (setUsed m c false) c = t := (next_of_chunkAt hSelf).trans ht
  have htAt : chunkAt (setUsed m c false) t = chunkAt m t := hOther t (by simp) (by omega)
  have htFree : used (setUsed m c false) t = false := (header_eq htAt).2.2.2.trans hFree
  have htEnd : next (setUsed m c false) t = 0 :=
    (header_eq htAt).2.1.trans (hSpace.chunks.last t (by simp))
  have hApart : Apart c 13 t 13 := hMark.header_apart (by simp) (by simp) (by omega)
  have htPos := hSpace.chunks.pos t (by simp)
  have hAfter := chunkAt_consolidateForwards hNext htPos.ne' htFree htEnd hApart
    (fun hz => absurd rfl hz)
  refine ⟨merged_forwards hMark htFree, ⟨[t], by simp⟩, by simp, ?_,
    (prev_of_chunkAt hAfter).trans (prev_of_chunkAt hSelf),
    (used_of_chunkAt hAfter).trans (used_of_chunkAt hSelf), ?_⟩
  · intro d hd hdc
    have hdPre : d ∈ pre := by
      rcases List.mem_append.mp hd with hd | hd
      · exact hd
      · exact absurd (List.mem_singleton.mp hd) hdc
    have hcd : Apart c 13 d 13 := hMark.header_apart (by simp) (by simp [hdPre]) (Ne.symm hdc)
    have hKept := chunkAt_consolidateForwards_of_apart hNext htPos.ne' htFree htEnd hApart hcd
      (fun hz => absurd rfl hz)
    exact hKept.trans (hOther d (by simp [hdPre]) hdc)
  · intro n hn hnt
    obtain rfl : t = n := ht.symm.trans hnt
    rcases List.mem_append.mp hn with hn | hn
    · have := hPre t hn
      omega
    · have := List.mem_singleton.mp hn
      omega

/-- No free chunk lies behind `c`, and nothing is merged. -/
theorem freedForwards_stay (hSpace : Space m head live cs) (hc : c ∈ cs)
    (hNone : ¬(next m c ≠ 0 ∧ used m (next m c) = false)) :
    FreedForwards m (consolidateForwards (setUsed m c false) c) cs cs c := by
  obtain ⟨hMark, hOther⟩ := hSpace.mark_free hc
  have hSelf := chunkAt_setUsed m c false
  have hNext : next (setUsed m c false) c = next m c := next_of_chunkAt hSelf
  have hStay : ¬(next (setUsed m c false) c ≠ 0 ∧
      used (setUsed m c false) (next (setUsed m c false) c) = false) := by
    rw [hNext]
    rintro ⟨hne, hFree⟩
    obtain ⟨hMem, hGap⟩ := hSpace.chunks.next_mem hc hne
    rw [(header_eq (hOther _ hMem (by omega))).2.2.2] at hFree
    exact hNone ⟨hne, hFree⟩
  rw [consolidateForwards_of_not hStay]
  refine ⟨.refl hMark c, List.prefix_rfl, hc, hOther, prev_of_chunkAt hSelf,
    used_of_chunkAt hSelf, ?_⟩
  rintro n hn rfl
  refine ⟨hNext, size_of_chunkAt hSelf, ?_⟩
  have hne := (hSpace.chunks.pos _ hn).ne'
  by_contra hNotUsed
  exact hNone ⟨hne, by simpa using hNotUsed⟩

theorem free_forwards (hSpace : Space m head live cs) (hc : c ∈ cs)
    (hUnmerged : Unmerged m c) :
    ∃ cs', FreedForwards m (consolidateForwards (setUsed m c false) c) cs cs' c := by
  by_cases hMerge : next m c ≠ 0 ∧ used m (next m c) = false
  · obtain ⟨pre, post, rfl⟩ := List.append_of_mem hc
    have hEq := hSpace.chunks.next_of_split
    cases post with
    | nil => exact absurd (by simpa using hEq) hMerge.1
    | cons t post =>
      have ht : next m c = t := by simpa using hEq
      have hEnd := hUnmerged.behind hMerge.1 hMerge.2
      have hSplit : Chunks m ((pre ++ [c]) ++ t :: post) := by simpa using hSpace.chunks
      have hLast := hSplit.next_of_split
      cases post with
      | nil => exact ⟨_, freedForwards_last hSpace (ht ▸ hMerge.2)⟩
      | cons u post =>
        have hu : next m t = u := by simpa using hLast
        have hPos := hSpace.chunks.pos u (by simp)
        rw [ht, hu] at hEnd
        omega
  · exact ⟨cs, freedForwards_stay hSpace hc hMerge⟩

/-- The chunk before `c` is in every initial part of the list that `c` is in. -/
theorem prev_mem_of_prefix {cs' : List Nat} (h : Chunks m cs) (hPrefix : cs' <+: cs) (hc : c ∈ cs')
    (hne : prev m c ≠ 0) : prev m c ∈ cs' ∧ prev m c ≠ c := by
  obtain ⟨post, rfl⟩ := hPrefix
  obtain ⟨pre, mid, rfl⟩ := List.append_of_mem hc
  have hSplit : Chunks m (pre ++ c :: (mid ++ post)) := by simpa using h
  obtain ⟨pre', rfl⟩ := hSplit.split_of_prev hne
  have hGap := (List.pairwise_append.mp hSplit.sorted).2.2 (prev m c) (by simp) c (by simp)
  exact ⟨by simp, by omega⟩

theorem free (hSpace : Space m head live cs) (h : Tiled m live cs) (hc : c ∈ cs)
    (hUnmerged : Unmerged m c) (hp : Heap) :
    ∃ cs', Space (Kmm.freeBig hp m (c + 13)).2 head (live.filter fun b => b.ptr ≠ c + 13) cs' ∧
      Tiled (Kmm.freeBig hp m (c + 13)).2 (live.filter fun b => b.ptr ≠ c + 13) cs' := by
  obtain ⟨cs', hFreed⟩ := free_forwards hSpace hc hUnmerged
  have hStay : ¬ (prev (consolidateForwards (setUsed m c false) c) c ≠ 0 ∧
      used (consolidateForwards (setUsed m c false) c)
        (prev (consolidateForwards (setUsed m c false) c) c) = false) := by
    rw [hFreed.prev_eq]
    rintro ⟨hne, hFreeBefore⟩
    obtain ⟨hMem, hAway⟩ := prev_mem_of_prefix hSpace.chunks hFreed.initial hFreed.mem hne
    rw [(header_eq (hFreed.other _ hMem hAway)).2.2.2, hUnmerged.before hne] at hFreeBefore
    cases hFreeBefore
  rw [hSpace.freeBig_snd hc, consolidateBackwards_of_not hStay]
  exact ⟨cs', hSpace.free_merged hc hFreed.merged,
    h.release hSpace hFreed.initial hFreed.mem hFreed.other hFreed.prev_eq hFreed.free
      hFreed.stayed hUnmerged.before⟩

/-- Only the blocks above `head` matter. -/
theorem of_live (h : Tiled m live cs) {live' : List Block} (hSpace : Space m head live cs)
    (hKeep : ∀ b ∈ live, head < b.ptr → b ∈ live') : Tiled m live' cs where
  tile := h.tile
  held := h.held.imp_left fun hHeld d hd hUsed => by
    obtain ⟨b, hb, hPtr⟩ := hHeld d hd hUsed
    have hAbove : head < b.ptr := by
      rcases hSpace.head_le hd with rfl | hLe <;> omega
    exact ⟨b, hKeep b hb hAbove, hPtr⟩

end Tiled

/-! ## Runs -/

section Runs

variable {ι : Type} [DecidableEq ι] {start : Nat} {s t : HeapSystem ι} {d : ι}

/-- The call reuses no hole, appends only behind a chunk that is at least a header long, and
merges no chunk except the last one into the chunk before it. -/
def TilingCall (s : HeapSystem ι) (d : ι) : Call → Prop
  | .malloc size => fastbinThreshold < size →
      ∀ fuel p, place fuel s.mm.mappedHeap (s.mem d) (reqSize size) = some p →
        match p with
        | .first _ => True
        | .hole _ => False
        | .append last => 13 ≤ Kmm.size (s.mem d) last
  | .free ptr => s.mm.mappedHeap.bigChunks < ptr →
      Unmerged (s.mem d) (ptrSub ptr sizeofBigChunk)
  | .store _ _ => True

/-- The heap of the space `d` is sound, and its chunks are tiled. -/
def TiledIn (start : Nat) (d : ι) (s : HeapSystem ι) : Prop :=
  ∃ cs, Space (s.mem d) (bigStart start) (s.liveIn d) cs ∧ Tiled (s.mem d) (s.liveIn d) cs

theorem placeable_of_tiled (hSound : Sound start {d} s) (hTiled : TiledIn start d s) {c : Call}
    (hCall : TilingCall s d c) : s.Placeable d c := by
  cases c with
  | malloc size =>
    intro hBig fuel p hPlace
    have hHere := hCall hBig fuel p hPlace
    cases p with
    | first c =>
      obtain ⟨cs, hSpace, hTile⟩ := hTiled
      unfold place at hPlace
      split at hPlace
      · rename_i hz
        obtain rfl := hTile.eq_single hSpace (hSound.none_big hz)
        cases hPlace
        rw [hSound.globals.bigChunks]
        exact Or.inl (hSpace.chunks.last _ rfl)
      · rw [hSound.globals.bigChunks] at hPlace
        exact absurd (hSpace.searchHole_found hPlace) id
    | hole c => trivial
    | append last => exact hHere
  | free ptr => trivial
  | store a v => trivial

/-- When the headers stay as they are, so does the list, and only the blocks have to be followed. -/
theorem TiledIn.of_same (h : TiledIn start d s) (hSound : Sound start {d} t)
    (hMem : t.mem d = s.mem d)
    (hKeep : ∀ b ∈ s.liveIn d, bigStart start < b.ptr → b ∈ t.liveIn d) :
    TiledIn start d t := by
  obtain ⟨cs, hSpace, hTile⟩ := h
  obtain ⟨cs', hSpace'⟩ := hSound.space d rfl
  rw [hMem] at hSpace'
  obtain rfl : cs = cs' := hSpace.chunks.toLinked.unique hSpace'.chunks.toLinked
    (hSpace.head_eq.trans hSpace'.head_eq.symm)
  refine ⟨cs, ?_, ?_⟩
  · rw [hMem]
    exact hSpace'
  · rw [hMem]
    exact hTile.of_live hSpace hKeep

theorem TiledIn.malloc_big (hSound : Sound start {d} s) (h : TiledIn start d s) {size fuel : Nat}
    {r : Nat × Heap × Memory} (hBig : fastbinThreshold < size)
    (hFits : s.Fits 4294967296 d (.malloc size)) (hCall : TilingCall s d (.malloc size))
    (hRun : mallocBig fuel s.mm.mappedHeap (s.mem d) (reqSize size) = some r) :
    bigStart start < r.1 ∧ ∃ cs, Space r.2.2 (bigStart start) (⟨r.1, size⟩ :: s.liveIn d) cs ∧
      Tiled r.2.2 (⟨r.1, size⟩ :: s.liveIn d) cs := by
  obtain ⟨p, hPlace, hPtr, -, hMem⟩ := mallocBig_eq_some hRun
  obtain ⟨hWrap, hAllFit⟩ := hFits hBig
  have hFit := hAllFit fuel p hPlace
  have hHere := hCall hBig fuel p hPlace
  obtain ⟨hLow, hHigh⟩ := reqSize_bounds hWrap
  obtain ⟨cs, hSpace, hTile⟩ := h
  have hHead := hSound.globals.bigChunks
  rw [hMem]
  unfold place at hPlace
  split at hPlace
  · rename_i hz
    have hNone : ∀ b ∈ s.liveIn d, b.ptr ≤ bigStart start := hSound.none_big hz
    obtain rfl := hTile.eq_single hSpace hNone
    cases hPlace
    simp only [chunkAddress, hHead] at hFit
    have hPtr' : r.1 = bigStart start + 13 := by
      rw [hPtr, putChunk, hHead]
      exact ptrAdvance_of_lt (n := 13) (by omega)
    rw [hPtr', putChunk, hHead]
    exact ⟨by omega, _, hSpace.put_first hNone (by omega) hLow (by omega)
      (Or.inl (hSpace.chunks.last _ rfl)), .singleton _, Or.inr ⟨_, rfl⟩⟩
  · rename_i hne
    rw [hHead] at hPlace
    have hFound := hSpace.searchHole_found hPlace
    cases p with
    | first c => exact absurd hFound id
    | hole c => exact absurd hHere id
    | append last =>
      have hLast := hFound.1
      obtain ⟨pre, rfl⟩ := List.getLast?_eq_some_iff.mp hLast
      have hGap : 13 ≤ Kmm.size (s.mem d) last := hHere
      simp only [chunkAddress] at hFit
      have hAddress : ptrAdvance last (Kmm.size (s.mem d) last) =
          last + Kmm.size (s.mem d) last := ptrAdvance_of_lt (by omega)
      have hPtr' : r.1 = last + Kmm.size (s.mem d) last + 13 := by
        rw [hPtr]
        simp only [putChunk, hAddress]
        exact ptrAdvance_of_lt (n := 13) (by omega)
      have hHolder : ∃ b ∈ s.liveIn d, bigStart start < b.ptr := by
        have hPos : 0 < s.live.countP fun e => bigStart start < e.2.ptr := by
          rw [← hSound.count]
          omega
        obtain ⟨e, he, hAbove⟩ := List.countP_pos_iff.mp hPos
        have hed : e.1 = d := hSound.within e he
        exact ⟨e.2, mem_blocksIn.mpr (hed ▸ he), by simpa using hAbove⟩
      have hAbove := hSpace.head_le (List.mem_of_getLast? hLast)
      rw [hPtr']
      simp only [putChunk]
      exact ⟨by omega, _, hSpace.put_append hLast hGap (by omega) hLow hFit,
        Tiled.append hSpace hTile hHolder hGap (by omega) (by omega)⟩

theorem TiledIn.malloc {size : Nat} (hSound : Sound start {d} s) (h : TiledIn start d s)
    (hStep : Step s (d, .malloc size) t) (hFits : s.Fits 4294967296 d (.malloc size))
    (hCall : TilingCall s d (.malloc size)) (hSound' : Sound start {d} t) : TiledIn start d t := by
  obtain ⟨-, fuel, hRun⟩ := hStep
  obtain ⟨r, hMalloc, rfl⟩ := Option.map_eq_some_iff.mp hRun
  have hKeep : ∀ b ∈ s.liveIn d, bigStart start < b.ptr →
      b ∈ blocksIn (if r.1 = 0 then s.live else (d, ⟨r.1, size⟩) :: s.live) d := by
    intro b hb _
    split
    · exact hb
    · rw [blocksIn_cons_self]
      exact List.mem_cons_of_mem _ hb
  simp only [malloc] at hMalloc
  split at hMalloc
  · cases hMalloc
    exact h.of_same hSound' (Function.update_self ..) hKeep
  · split at hMalloc
    · cases hMalloc
      exact h.of_same hSound' (Function.update_self ..) hKeep
    · rename_i hBig
      obtain ⟨r', hMallocBig, rfl⟩ := Option.map_eq_some_iff.mp hMalloc
      obtain ⟨hAbove, cs, hSpace, hTile⟩ :=
        h.malloc_big hSound (Nat.not_le.mp hBig) hFits hCall hMallocBig
      have hne : r'.1 ≠ 0 := (Nat.zero_lt_of_lt hAbove).ne'
      refine ⟨cs, ?_⟩
      simp only [liveIn, Function.update_self, if_neg hne, blocksIn_cons_self]
      exact ⟨hSpace, hTile⟩

theorem TiledIn.free {ptr : Nat} (hSound : Sound start {d} s) (h : TiledIn start d s)
    (hStep : Step s (d, .free ptr) t) (hCall : TilingCall s d (.free ptr))
    (hSound' : Sound start {d} t) : TiledIn start d t := by
  obtain ⟨⟨b, hb, rfl⟩, fuel, hRun⟩ := hStep
  cases hRun
  by_cases hSmall : start ≤ b.ptr ∧ b.ptr ≤ bigStart start
  · refine h.of_same hSound' ?_ fun e he heBig => ?_
    · simp only [Function.update_self, free, hSound.globals.fastBins, hSound.globals.bigChunks,
        if_pos hSmall]
    · simp only [liveIn, blocksIn_free_self]
      refine List.mem_filter.mpr ⟨he, ?_⟩
      have hne : e.ptr ≠ b.ptr := by omega
      simpa using hne
  · obtain ⟨cs, hSpace, hTile⟩ := h
    have hBig := hSound.big_of_not_small hb hSmall
    obtain ⟨c, hc, hPtr, -, -⟩ := hSpace.owner b hb hBig
    have hcLt := hSpace.chunks.fits c hc
    have hUnmerged : Unmerged (s.mem d) c := by
      have := hCall (hSound.globals.bigChunks ▸ hBig)
      rwa [hPtr, show ptrSub (c + 13) sizeofBigChunk = c by
        unfold ptrSub sizeofBigChunk; omega] at this
    obtain ⟨cs', hSpace', hTile'⟩ := hTile.free hSpace hc hUnmerged s.mm.mappedHeap
    refine ⟨cs', ?_⟩
    simp only [liveIn, Function.update_self, blocksIn_free_self, free,
      hSound.globals.fastBins, hSound.globals.bigChunks, if_neg hSmall]
    rw [hPtr]
    exact ⟨hSpace', hTile'⟩

theorem TiledIn.step {c : Call} (hSound : Sound start {d} s) (h : TiledIn start d s)
    (hStep : Step s (d, c) t) (hFits : s.Fits 4294967296 d c) (hCall : TilingCall s d c)
    (hSound' : Sound start {d} t) : TiledIn start d t := by
  cases c with
  | malloc size => exact h.malloc hSound hStep hFits hCall hSound'
  | free ptr => exact h.free hSound hStep hCall hSound'
  | store a v =>
    obtain ⟨⟨b, hb, ha⟩, fuel, hRun⟩ := hStep
    cases hRun
    obtain ⟨cs, hSpace, hTile⟩ := h
    refine ⟨cs, ?_⟩
    simp only [liveIn, Function.update_self]
    exact ⟨hSpace.store hb ha v, hTile.congr (hSpace.store_headers hb ha v)⟩

/-- In every run of tiling calls the chunks tile the used part of the heap. -/
theorem represented_of_tiling {stop max : Nat} {isKernel rw : Bool} {mm : MemoryManager}
    {mem : ι → Memory} {xs : List (ι × Call)}
    (hInit : memoryManagerInitialize start stop max isKernel rw = some mm)
    (hRegion : start + 6813 ≤ stop) (hStop : stop < 4294967296)
    (hHead : HeadClear start (mem d))
    (hRun : Run (Guarded Step fun s x => In d 4294967296 s x ∧ TilingCall s x.1 x.2)
      (boot mm mem) xs t) :
    ∃ cs, Represented (t.mem d) t.mm.mappedHeap.bigChunks cs := by
  obtain ⟨hGlobals, hNone, -⟩ := globals_of_initialize hInit hRegion hStop
  have hBoot : Sound start {d} (boot mm mem) ∧ TiledIn start d (boot mm mem) :=
    ⟨.boot hGlobals hNone (by rintro e rfl; exact hHead), _, .single hHead hGlobals.fits,
      .singleton _, Or.inr ⟨_, rfl⟩⟩
  have hInv : Sound start {d} t ∧ TiledIn start d t := by
    refine hRun.invariant (I := fun s => Sound start {d} s ∧ TiledIn start d s) hBoot ?_
    rintro s ⟨e, c⟩ s' ⟨hSound, hTiled⟩ ⟨⟨⟨rfl, hFits⟩, hCall⟩, hStep⟩
    have hPlaceable := placeable_of_tiled hSound hTiled hCall
    have hSound' := hSound.step rfl hStep hFits hPlaceable hSound.count_lt
    exact ⟨hSound', hTiled.step hSound hStep hFits hCall hSound'⟩
  obtain ⟨hSound, cs, hSpace, hTile⟩ := hInv
  rw [hSound.globals.bigChunks]
  exact ⟨cs, hTile.represented hSpace⟩

end Runs

/-! ## Runs on concrete frames -/

/-- Decides `TilingCall` for runs over frames that hold zeros. -/
def tilingNow (s : HeapSystem Unit) (x : Unit × Call) : Bool :=
  s.fitsNow 8 4294967296 x &&
    match x.2 with
    | .malloc _ => s.placementIs 8 (fun m _ p => match p with
      | .first _ => true
      | .hole _ => false
      | .append last => 13 ≤ Kmm.size m last) x.1 x.2
    | .free ptr => decide (s.mm.mappedHeap.bigChunks < ptr →
        Unmerged (s.mem x.1) (ptrSub ptr sizeofBigChunk))
    | .store _ _ => true

theorem represented_of_tiling_kernel : ∃ t, kernelHeap tilingNow
    [.malloc 100, .malloc 20, .malloc 200, .malloc 90, .free 0xC0001A9D, .malloc 300] = some t ∧
      ∃ cs, Represented (t.mem ()) t.mm.mappedHeap.bigChunks cs := by
  have hSome : (kernelHeap tilingNow [.malloc 100, .malloc 20, .malloc 200, .malloc 90,
      .free 0xC0001A9D, .malloc 300]).isSome := by
    decide +kernel
  have hOk : ∀ s x, tilingNow s x = true →
      In () 4294967296 s x ∧ TilingCall s x.1 x.2 := by
    rintro s ⟨⟨⟩, c⟩ hOk
    obtain ⟨hFits, hTiling⟩ := Bool.and_eq_true_iff.mp hOk
    refine ⟨⟨rfl, fits_of_fitsNow hFits⟩, ?_⟩
    cases c with
    | malloc size =>
      intro hBig fuel p hPlace
      have hHere := (placement_of_is hTiling hBig).2 fuel p hPlace
      cases p with
      | first c => trivial
      | hole c => cases hHere
      | append last => exact of_decide_eq_true hHere
    | free ptr => exact fun hBig => decide_eq_true_iff.mp hTiling hBig
    | store a v => trivial
  obtain ⟨t, ht⟩ := Option.isSome_iff_exists.mp hSome
  obtain ⟨mm, hInit, hRun⟩ := run_of_kernelHeap hOk ht
  exact ⟨t, ht, represented_of_tiling hInit (by decide) (by decide)
    ⟨by decide +kernel, by decide +kernel⟩ hRun⟩

/-- Merging backwards into the first chunk leaves that chunk in the list, without the back link
that leads to it. -/
theorem not_represented_of_merge : ∃ mm t,
    memoryManagerInitialize 0xC0000000 0xC1000000 0xCFFFF000 true true = some mm ∧
    HeadClear 0xC0000000 (fun _ => 0) ∧
    Run (Guarded Step (In () 4294967296)) (boot mm fun _ _ => 0)
      [((), .malloc 100), ((), .malloc 100), ((), .free 0xC0001A9D), ((), .free 0xC0001B15)] t ∧
    ¬ ∃ cs, Represented (t.mem ()) t.mm.mappedHeap.bigChunks cs := by
  have hEnd : (kernelHeap (fitsNow 8 4294967296)
      [.malloc 100, .malloc 100, .free 0xC0001A9D, .free 0xC0001B15]).map
        (fun t => (t.mm.mappedHeap.bigChunks, next (t.mem ()) 0xC0001A90,
          prev (t.mem ()) 0xC0001B08)) =
      some (0xC0001A90, 0xC0001B08, 0) := by
    decide +kernel
  obtain ⟨t, ht, hEq⟩ := Option.map_eq_some_iff.mp hEnd
  simp only [Prod.mk.injEq] at hEq
  obtain ⟨hHead, hNext, hPrev⟩ := hEq
  have hOk : ∀ s x, fitsNow 8 4294967296 s x = true → In () 4294967296 s x :=
    fun s x hFits => ⟨rfl, fits_of_fitsNow hFits⟩
  obtain ⟨mm, hInit, hRun⟩ := run_of_kernelHeap hOk ht
  refine ⟨mm, t, hInit, ⟨by decide +kernel, by decide +kernel⟩, hRun, ?_⟩
  rintro ⟨cs, hCs⟩
  have hFirst := hCs.head_eq
  rw [hHead] at hFirst
  cases cs with
  | nil => cases hFirst
  | cons c cs =>
    obtain rfl : c = 0xC0001A90 := by simpa using hFirst
    cases cs with
    | nil =>
      have hLast : next (t.mem ()) 0xC0001A90 = 0 := hCs.last _ rfl
      rw [hNext] at hLast
      cases hLast
    | cons n cs =>
      obtain ⟨hn, hBack, -, -⟩ := (List.isChain_cons_cons.mp hCs.chain).1
      rw [hNext] at hn
      rw [← hn, hPrev] at hBack
      cases hBack

end Juos.Kmm
