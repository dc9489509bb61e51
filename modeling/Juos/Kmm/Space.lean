import Juos.Kmm.Merge
import Mathlib.Data.List.Perm.Subperm

/-!
# Live blocks in one address space

`Space m head live cs` is the invariant that ties the big chunks `cs` of one address space to the
blocks its callers hold. Every live block above `head` sits in a used chunk with room for it up
to the next header, or up to the chunk's own `size` when it is the last one, and the blocks of
the fast bin lie below `head`. It mentions neither `allocated_chunks` nor the fast bin, which all
address spaces share.

* `Space.data_apart`: no live block overlaps a header of the list.
* `Space.big_disjoint`: the live blocks above `head` are disjoint.
* `Space.put_first`, `Space.put_hole`, `Space.put_append`, `Space.freeBig` and `Space.store`: each
  way to change the space keeps the invariant.

Only `put_first` and `put_append` need more than the search loop provides: the first chunk is taken
over together with its successor, and the place behind the last chunk is computed from its `size`.
-/

namespace Juos.Kmm

open Machine

/-- A pointer handed out by `malloc` with the size that was asked for. -/
structure Block where
  ptr : Nat
  size : Nat
  deriving DecidableEq, Repr

/-- The chunk `c` has room for `n` bytes of user data. -/
structure HasRoom (m : Memory) (c n : Nat) : Prop where
  last : next m c = 0 → n + 13 ≤ size m c ∧ c + size m c ≤ 4294967296
  inner : next m c ≠ 0 → c + 13 + n ≤ next m c

theorem hasRoom_congr {m m' : Memory} {c n : Nat} (hAt : chunkAt m' c = chunkAt m c)
    (h : HasRoom m c n) : HasRoom m' c n := by
  obtain ⟨-, hNext, hSize, -⟩ := header_eq hAt
  exact ⟨hNext ▸ hSize ▸ h.last, hNext ▸ h.inner⟩

/-- A chunk keeps its room when its size is kept and its successor only moves up. -/
theorem HasRoom.mono {m m' : Memory} {c n : Nat} (h : HasRoom m c n)
    (hSize : size m' c = size m c)
    (hNext : next m' c = next m c ∨ (next m c ≠ 0 ∧ next m c ≤ next m' c)) : HasRoom m' c n := by
  refine ⟨fun hEnd => ?_, fun hInner => ?_⟩
  · rw [hSize]
    exact h.last (by omega)
  · have := h.inner
    omega

structure Space (m : Memory) (head : Nat) (live : List Block) (cs : List Nat) : Prop where
  chunks : Chunks m cs
  head_eq : cs.head? = some head
  owner : ∀ b ∈ live, head < b.ptr →
    ∃ c ∈ cs, b.ptr = c + 13 ∧ used m c = true ∧ HasRoom m c b.size
  small : ∀ b ∈ live, b.ptr ≤ head → b.ptr + b.size ≤ head
  distinct : (live.map Block.ptr).Nodup

/-- A placement is safe for `n` bytes of data when a first chunk that is taken over leads nowhere
or has room up to its successor, and when an appended chunk lies behind one that is at least a
header long. -/
def SafePlace (m : Memory) (n : Nat) : Placement → Prop
  | .first c => next m c = 0 ∨ c + 13 + n ≤ next m c
  | .hole _ => True
  | .append last => 13 ≤ size m last

instance (m : Memory) (n : Nat) : (p : Placement) → Decidable (SafePlace m n p)
  | .first c => inferInstanceAs (Decidable (next m c = 0 ∨ c + 13 + n ≤ next m c))
  | .hole _ => inferInstanceAs (Decidable True)
  | .append last => inferInstanceAs (Decidable (13 ≤ size m last))

/-! ## A chunk behind the last one -/

/-- The headers when a chunk was appended to `pre ++ [c]`: the new one, the last one and those
before it. -/
structure Appended (m m' : Memory) (pre : List Nat) (c req : Nat) : Prop where
  new : chunkAt m' (c + size m c) = ⟨c, 0, req, true⟩
  last : chunkAt m' c = { chunkAt m c with next := c + size m c }
  other : ∀ d ∈ pre, chunkAt m' d = chunkAt m d

theorem below_last {m : Memory} {pre : List Nat} {c d : Nat} (h : Chunks m (pre ++ [c]))
    (hd : d ∈ pre) : d + 13 ≤ c :=
  (List.pairwise_append.mp h.sorted).2.2 d hd c (List.mem_singleton_self c)

theorem appended_appendChunk {m : Memory} {pre : List Nat} {c req : Nat}
    (h : Chunks m (pre ++ [c])) (hGap : 13 ≤ size m c) (hReq : req < 4294967296)
    (hRoom : c + size m c + 13 ≤ 4294967296) : Appended m (appendChunk m req c) pre c req where
  new := chunkAt_appendChunk_new hReq hRoom hGap
  last := chunkAt_appendChunk_last hRoom hGap
  other d hd := by
    have hdc := below_last h hd
    exact chunkAt_appendChunk_of_apart hRoom (apart_of_ge hdc (by omega))
      (apart_of_ge (by omega) hRoom)

theorem Appended.chunks {m m' : Memory} {pre : List Nat} {c req : Nat}
    (hAppended : Appended m m' pre c req) (h : Chunks m (pre ++ [c])) (hGap : 13 ≤ size m c)
    (hRoom : c + size m c + 13 ≤ 4294967296) : Chunks m' (pre ++ [c] ++ [c + size m c]) := by
  have hcPos := h.pos c (by simp)
  refine ⟨?_, fun d hd => ?_⟩
  · refine h.toLinked.append (by omega) (by omega) (next_of_chunkAt hAppended.last)
      (next_of_chunkAt hAppended.new) (prev_of_chunkAt hAppended.new)
      (fun d hd => (header_eq (hAppended.other d hd)).2.1) fun d hd => ?_
    rcases List.mem_append.mp hd with hd | hd
    · exact (header_eq (hAppended.other d hd)).1
    · obtain rfl : d = c := by simpa using hd
      exact prev_of_chunkAt hAppended.last
  · rcases List.mem_append.mp hd with hd | hd
    · exact h.fits d hd
    · obtain rfl : d = c + size m c := by simpa using hd
      exact hRoom

namespace Space

variable {m m' : Memory} {head c req n : Nat} {live : List Block} {cs cs' : List Nat} {b : Block}

theorem head_mem (h : Space m head live cs) : head ∈ cs := List.mem_of_head? h.head_eq

theorem head_le (h : Space m head live cs) (hc : c ∈ cs) : c = head ∨ head + 13 ≤ c := by
  cases cs with
  | nil => cases hc
  | cons d cs =>
    obtain rfl : d = head := by simpa using h.head_eq
    rcases List.mem_cons.mp hc with rfl | hc
    · exact Or.inl rfl
    · exact Or.inr ((List.pairwise_cons.mp h.chunks.sorted).1 c hc)

/-- Where the data of a live block above `head` ends. -/
theorem block_end (h : Space m head live cs) (hb : b ∈ live) (hBig : head < b.ptr) :
    ∃ c ∈ cs, b.ptr = c + 13 ∧ b.ptr + b.size ≤ 4294967296 ∧
      ∀ d ∈ cs, c < d → b.ptr + b.size ≤ d := by
  obtain ⟨c, hc, hPtr, -, hRoom⟩ := h.owner b hb hBig
  refine ⟨c, hc, hPtr, ?_, ?_⟩
  · by_cases hEnd : next m c = 0
    · have := hRoom.last hEnd
      omega
    · have := hRoom.inner hEnd
      have : next m c < 4294967296 := load32_lt _ _
      omega
  · intro d hd hLt
    obtain ⟨hne, hle⟩ := h.chunks.next_le hc hd hLt
    have := hRoom.inner hne
    omega

theorem data_apart (h : Space m head live cs) (hb : b ∈ live) (hc : c ∈ cs) :
    b.ptr + b.size ≤ c ∨ c + 13 ≤ b.ptr := by
  by_cases hBig : head < b.ptr
  · obtain ⟨d, hd, hPtr, -, hEnd⟩ := h.block_end hb hBig
    rcases Nat.lt_trichotomy c d with hLt | rfl | hGt
    · obtain ⟨hne, hle⟩ := h.chunks.next_le hc hd hLt
      have := (h.chunks.next_mem hc hne).2
      omega
    · omega
    · exact Or.inl (hEnd c hc hGt)
  · have hSmall := h.small b hb (by omega)
    rcases h.head_le hc with rfl | hLe <;> omega

theorem big_disjoint (h : Space m head live cs) {b' : Block} (hb : b ∈ live) (hb' : b' ∈ live)
    (hBig : head < b.ptr) (hBig' : head < b'.ptr) (hne : b.ptr ≠ b'.ptr) :
    b.ptr + b.size ≤ b'.ptr ∨ b'.ptr + b'.size ≤ b.ptr := by
  obtain ⟨c, hc, hPtr, -, hEnd⟩ := h.block_end hb hBig
  obtain ⟨d, hd, hPtr', -, hEnd'⟩ := h.block_end hb' hBig'
  rcases Nat.lt_trichotomy c d with hLt | rfl | hGt
  · have := hEnd d hd hLt
    omega
  · omega
  · have := hEnd' c hc hGt
    omega

/-! ## The search loop ends -/

theorem searchHole_total (h : Space m head live cs) (req : Nat) :
    ∃ fuel p, searchHole m req fuel head = some p := by
  cases cs with
  | nil => cases h.head_eq
  | cons c cs =>
    obtain rfl : c = head := by simpa using h.head_eq
    have hChunks : Chunks m ([] ++ c :: cs) := h.chunks
    exact ⟨cs.length + 1, Kmm.searchHole_total hChunks (Nat.lt_succ_self _)⟩

theorem searchHole_found (h : Space m head live cs) {fuel : Nat} {p : Placement}
    (hRun : searchHole m req fuel head = some p) : Found m req cs p := by
  cases cs with
  | nil => cases h.head_eq
  | cons c cs =>
    obtain rfl : c = head := by simpa using h.head_eq
    have hChunks : Chunks m ([] ++ c :: cs) := h.chunks
    exact searchHole_spec hChunks hRun

/-! ## Handing out a chunk -/

/-- A chunk that nobody held becomes a live block; the chunks that are in use stay in use and
have no less room. -/
theorem insert (h : Space m head live cs) (hChunks : Chunks m' cs')
    (hHead : cs'.head? = some head) (hc : c ∈ cs') (hUsed : used m' c = true)
    (hRoom : HasRoom m' c n) (hNew : ∀ b ∈ live, b.ptr ≠ c + 13)
    (hKeep : ∀ d ∈ cs, d ≠ c → used m d = true →
      d ∈ cs' ∧ used m' d = true ∧ ∀ k, HasRoom m d k → HasRoom m' d k)
    (hAbove : head < c + 13) : Space m' head (⟨c + 13, n⟩ :: live) cs' where
  chunks := hChunks
  head_eq := hHead
  owner b hb hBig := by
    rcases List.mem_cons.mp hb with rfl | hb
    · exact ⟨c, hc, rfl, hUsed, hRoom⟩
    · obtain ⟨d, hd, hPtr, hdUsed, hdRoom⟩ := h.owner b hb hBig
      have hdc : d ≠ c := fun he => hNew b hb (he ▸ hPtr)
      obtain ⟨hd', hdUsed', hMore⟩ := hKeep d hd hdc hdUsed
      exact ⟨d, hd', hPtr, hdUsed', hMore _ hdRoom⟩
  small b hb hLow := by
    rcases List.mem_cons.mp hb with rfl | hb
    · exact absurd hLow (Nat.not_le.mpr hAbove)
    · exact h.small b hb hLow
  distinct := by
    rw [List.map_cons, List.nodup_cons]
    refine ⟨fun hMem => ?_, h.distinct⟩
    obtain ⟨b, hb, hPtr⟩ := List.mem_map.mp hMem
    exact hNew b hb hPtr

/-- The list keeps its links when no header but that of `c` changes, and that one not in its
links. -/
theorem chunks_of_one (h : Space m head live cs)
    (hSelf : next m' c = next m c ∧ prev m' c = prev m c)
    (hOther : ∀ d ∈ cs, d ≠ c → chunkAt m' d = chunkAt m d) : Chunks m' cs := by
  have hLinks : ∀ d ∈ cs, next m' d = next m d ∧ prev m' d = prev m d := by
    intro d hd
    by_cases hdc : d = c
    · rw [hdc]
      exact hSelf
    · obtain ⟨hPrev, hNext, -, -⟩ := header_eq (hOther d hd hdc)
      exact ⟨hNext, hPrev⟩
  exact ⟨h.chunks.toLinked.congr (fun d hd => (hLinks d hd).1)
    (fun d hd => Or.inl (hLinks d hd).2), h.chunks.fits⟩

/-- The chunks other than the one handed out keep their flag and their room. -/
theorem keep_of_one (hOther : ∀ d ∈ cs, d ≠ c → chunkAt m' d = chunkAt m d) :
    ∀ d ∈ cs, d ≠ c → used m d = true →
      d ∈ cs ∧ used m' d = true ∧ ∀ k, HasRoom m d k → HasRoom m' d k :=
  fun d hd hne hUsed =>
    ⟨hd, (header_eq (hOther d hd hne)).2.2.2.trans hUsed,
      fun _ hRoom => hasRoom_congr (hOther d hd hne) hRoom⟩

theorem put_first (h : Space m head live cs) (hNone : ∀ b ∈ live, b.ptr ≤ head)
    (hReq : req < 4294967296) (hn : n + 13 ≤ req) (hFits : head + req ≤ 4294967296)
    (hCover : next m head = 0 ∨ head + 13 + n ≤ next m head) :
    Space (setUsed (setSize m head req) head true) head (⟨head + 13, n⟩ :: live) cs := by
  have hSelf := chunkAt_putFirst (m := m) (c := head) hReq
  have hOther : ∀ d ∈ cs, d ≠ head →
      chunkAt (setUsed (setSize m head req) head true) d = chunkAt m d := fun d hd hne =>
    chunkAt_putFirst_of_apart (h.chunks.header_apart h.head_mem hd (Ne.symm hne))
  have hNext := next_of_chunkAt hSelf
  have hSize := size_of_chunkAt hSelf
  refine h.insert (h.chunks_of_one ⟨hNext, prev_of_chunkAt hSelf⟩ hOther) h.head_eq h.head_mem
    (used_of_chunkAt hSelf) ⟨fun _ => ?_, fun hInner => ?_⟩ ?_ (keep_of_one hOther) (by omega)
  · rw [hSize]
    exact ⟨hn, hFits⟩
  · rw [hNext] at hInner ⊢
    exact hCover.resolve_left hInner
  · intro b hb
    have := hNone b hb
    omega

theorem put_hole (h : Space m head live cs) (hc : c ∈ cs) (hNext : next m c ≠ 0)
    (hFree : used m c = false) (hLarge : req ≤ next m c - c) (hMin : bigchunkMinSpace ≤ req)
    (hReq : req < 4294967296) (hn : n + 13 ≤ req) :
    Space (reuseHole m req c) head (⟨c + 13, n⟩ :: live) cs := by
  obtain ⟨s, hSelf⟩ := chunkAt_reuseHole (m := m) (c := c) hMin hReq
  have hOther : ∀ d ∈ cs, d ≠ c → chunkAt (reuseHole m req c) d = chunkAt m d :=
    fun d hd hne => chunkAt_reuseHole_of_apart hMin hReq
      (h.chunks.header_apart hc hd (Ne.symm hne))
  have hNext' : next (reuseHole m req c) c = next m c := next_of_chunkAt hSelf
  have hAbove : head < c + 13 := by
    rcases h.head_le hc with rfl | hLe <;> omega
  refine h.insert (h.chunks_of_one ⟨hNext', prev_of_chunkAt hSelf⟩ hOther) h.head_eq hc
    (used_of_chunkAt hSelf) ⟨fun hEnd => ?_, fun _ => ?_⟩ ?_ (keep_of_one hOther) hAbove
  · exact absurd (hNext'.symm.trans hEnd) hNext
  · have := (h.chunks.next_mem hc hNext).2
    rw [hNext']
    omega
  · intro b hb hPtr
    obtain ⟨d, -, hdPtr, hdUsed, -⟩ := h.owner b hb (by omega)
    obtain rfl : d = c := by omega
    rw [hFree] at hdUsed
    cases hdUsed

/-- A chunk placed behind the last one. -/
theorem put_append (h : Space m head live cs) (hLast : cs.getLast? = some c)
    (hGap : 13 ≤ size m c) (hReq : req < 4294967296) (hn : n + 13 ≤ req)
    (hFits : c + size m c + req ≤ 4294967296) :
    Space (appendChunk m req c) head (⟨c + size m c + 13, n⟩ :: live)
      (cs ++ [c + size m c]) := by
  obtain ⟨pre, rfl⟩ : ∃ pre, cs = pre ++ [c] := by
    obtain ⟨pre, hPre⟩ := List.getLast?_eq_some_iff.mp hLast
    exact ⟨pre, hPre⟩
  have hRoom : c + size m c + 13 ≤ 4294967296 := by omega
  have hAppended := appended_appendChunk h.chunks hGap hReq hRoom
  have hHead : (pre ++ [c] ++ [c + size m c]).head? = some head := by
    rw [List.head?_append, h.head_eq]
    rfl
  have hcAbove := h.head_le (c := c) (by simp)
  refine h.insert (hAppended.chunks h.chunks hGap hRoom) hHead (by simp)
    (used_of_chunkAt hAppended.new)
    ⟨fun _ => ?_, fun hInner => absurd (next_of_chunkAt hAppended.new) hInner⟩ ?_ ?_ (by omega)
  · rw [size_of_chunkAt hAppended.new]
    exact ⟨hn, hFits⟩
  · intro b hb hPtr
    obtain ⟨d, hd, hdPtr, -, -⟩ := h.owner b hb (by omega)
    rcases List.mem_append.mp hd with hd | hd
    · have := below_last h.chunks hd
      omega
    · obtain rfl : d = c := by simpa using hd
      omega
  · intro d hd _ hUsed
    refine ⟨List.mem_append_left _ hd, ?_⟩
    rcases List.mem_append.mp hd with hd | hd
    · exact ⟨(header_eq (hAppended.other d hd)).2.2.2.trans hUsed,
        fun _ hdRoom => hasRoom_congr (hAppended.other d hd) hdRoom⟩
    · obtain rfl : d = c := by simpa using hd
      have hNextEnd : next (appendChunk m req d) d = d + size m d := next_of_chunkAt hAppended.last
      refine ⟨(used_of_chunkAt hAppended.last).trans hUsed,
        fun k hdRoom => ⟨fun hZero => ?_, fun _ => ?_⟩⟩
      · omega
      · have := hdRoom.last (h.chunks.last d (by simp))
        omega

theorem put (h : Space m head live cs) {hp : Heap} {fuel : Nat} {p : Placement}
    (hHead : hp.bigChunks = head) (hPlace : place fuel hp m req = some p)
    (hNone : hp.allocatedChunks = 0 → ∀ b ∈ live, b.ptr ≤ head) (hMin : bigchunkMinSpace ≤ req)
    (hn : n + 13 ≤ req) (hReq : req < 4294967296)
    (hFits : chunkAddress m p + req ≤ 4294967296) (hSafe : SafePlace m n p) :
    (putChunk m req p).1 = chunkAddress m p ∧ head ≤ chunkAddress m p ∧
      ∃ cs', Space (putChunk m req p).2 head (⟨chunkAddress m p + 13, n⟩ :: live) cs' ∧
        ∀ c ∈ cs', c ∈ cs ∨ c = chunkAddress m p := by
  unfold place at hPlace
  by_cases hz : hp.allocatedChunks = 0
  · rw [if_pos hz] at hPlace
    cases hPlace
    rw [hHead] at hFits hSafe ⊢
    exact ⟨rfl, Nat.le_refl _, cs, h.put_first (hNone hz) hReq hn hFits hSafe,
      fun _ => Or.inl⟩
  · rw [if_neg hz, hHead] at hPlace
    have hFound := h.searchHole_found hPlace
    cases p with
    | first c => exact absurd hFound id
    | hole c =>
      obtain ⟨hc, hNext, hFree, hLarge⟩ := hFound
      simp only [putChunk, chunkAddress]
      refine ⟨trivial, ?_, cs, h.put_hole hc hNext hFree hLarge hMin hReq hn, fun _ => Or.inl⟩
      rcases h.head_le hc with rfl | hLe
      · exact Nat.le_refl _
      · exact Nat.le_trans (Nat.le_add_right _ _) hLe
    | append last =>
      have hLast := hFound.1
      simp only [putChunk, chunkAddress] at hFits ⊢
      refine ⟨ptrAdvance_of_lt (by omega), ?_, _, h.put_append hLast hSafe hReq hn hFits, ?_⟩
      · have := h.head_le (List.mem_of_getLast? hLast)
        omega
      · intro c hc
        simpa using hc

/-! ## Giving a chunk back, and writing user data -/

/-- Clearing the flag of one chunk changes no link. -/
theorem mark_free (h : Space m head live cs) (hc : c ∈ cs) :
    Chunks (setUsed m c false) cs ∧
      ∀ d ∈ cs, d ≠ c → chunkAt (setUsed m c false) d = chunkAt m d := by
  have hSelf := chunkAt_setUsed m c false
  have hOther : ∀ d ∈ cs, d ≠ c → chunkAt (setUsed m c false) d = chunkAt m d :=
    fun d hd hne => chunkAt_congr
      (sameOn_setUsed false (h.chunks.header_apart hc hd (Ne.symm hne)))
  exact ⟨h.chunks_of_one ⟨next_of_chunkAt hSelf, prev_of_chunkAt hSelf⟩ hOther, hOther⟩

/-- Whatever the freed chunk is merged with, only its own block is no longer live. -/
theorem free_merged (h : Space m head live cs) (hc : c ∈ cs)
    (hMerged : Merged (setUsed m c false) m' cs cs' c) :
    Space m' head (live.filter fun e => e.ptr ≠ c + 13) cs' := by
  obtain ⟨-, hOther⟩ := h.mark_free hc
  refine ⟨hMerged.chunks, hMerged.head_eq.trans h.head_eq, ?_, ?_, ?_⟩
  · intro e he heBig
    obtain ⟨heLive, hne⟩ := List.mem_filter.mp he
    obtain ⟨d, hd, hdPtr, hdUsed, hdRoom⟩ := h.owner e heLive heBig
    have hdc : d ≠ c := by
      rintro rfl
      simp [hdPtr] at hne
    have hdAt := hOther d hd hdc
    have hdUsed' : used (setUsed m c false) d = true := (header_eq hdAt).2.2.2.trans hdUsed
    have hd' : d ∈ cs' := by
      by_contra hNot
      rw [(hMerged.keep d hd hNot).1] at hdUsed'
      cases hdUsed'
    have hdRoom' := hasRoom_congr hdAt hdRoom
    refine ⟨d, hd', hdPtr, (hMerged.used_eq d hd').trans hdUsed', ?_⟩
    exact hdRoom'.mono (hMerged.size_eq d hd' hdc) (hMerged.next_eq d hd' hdc)
  · exact fun e he => h.small e (List.mem_of_mem_filter he)
  · exact h.distinct.sublist ((List.filter_sublist).map _)

theorem freeBig_snd (h : Space m head live cs) (hc : c ∈ cs) (hp : Heap) :
    (Kmm.freeBig hp m (c + 13)).2 =
      consolidateBackwards (consolidateForwards (setUsed m c false) c) c := by
  have hcLt := h.chunks.fits c hc
  have hChunk : ptrSub (c + 13) sizeofBigChunk = c := by
    unfold ptrSub sizeofBigChunk
    omega
  simp only [Kmm.freeBig, hChunk]

theorem freeBig (h : Space m head live cs) (hb : b ∈ live) (hBig : head < b.ptr) (hp : Heap) :
    ∃ cs', Space (Kmm.freeBig hp m b.ptr).2 head (live.filter fun e => e.ptr ≠ b.ptr) cs' ∧
      ∀ c ∈ cs', c ∈ cs := by
  obtain ⟨c, hc, hPtr, -, -⟩ := h.owner b hb hBig
  obtain ⟨cs₁, hForwards⟩ := merged_consolidateForwards (h.mark_free hc).1 hc
  have hc₁ : c ∈ cs₁ := by
    by_contra hNot
    exact (hForwards.keep c hc hNot).2 rfl
  obtain ⟨cs₂, hBackwards⟩ := merged_consolidateBackwards hForwards.chunks hc₁
  rw [hPtr, h.freeBig_snd hc]
  have hMerged := hForwards.trans hBackwards
  exact ⟨cs₂, h.free_merged hc hMerged, hMerged.sub⟩

theorem congr (h : Space m head live cs) (hAt : ∀ c ∈ cs, chunkAt m' c = chunkAt m c) :
    Space m' head live cs where
  chunks := ⟨h.chunks.toLinked.congr (fun c hc => (header_eq (hAt c hc)).2.1)
    (fun c hc => Or.inl (header_eq (hAt c hc)).1), h.chunks.fits⟩
  head_eq := h.head_eq
  owner b hb hBig := by
    obtain ⟨c, hc, hPtr, hUsed, hRoom⟩ := h.owner b hb hBig
    exact ⟨c, hc, hPtr, (header_eq (hAt c hc)).2.2.2.trans hUsed, hasRoom_congr (hAt c hc) hRoom⟩
  small := h.small
  distinct := h.distinct

/-- A write to a live block reaches no header. -/
theorem store_headers (h : Space m head live cs) (hb : b ∈ live) {a : Nat}
    (ha : b.ptr ≤ a ∧ a < b.ptr + b.size) (v : Nat) :
    ∀ c ∈ cs, chunkAt (store8 m a v) c = chunkAt m c := by
  have hTop : b.ptr + b.size ≤ 4294967296 := by
    by_cases hBig : head < b.ptr
    · obtain ⟨-, -, -, hEnd, -⟩ := h.block_end hb hBig
      exact hEnd
    · have := h.small b hb (by omega)
      have := h.chunks.fits head h.head_mem
      omega
  intro c hc
  refine chunkAt_congr (sameOn_store8 m v ?_)
  have hcFits := h.chunks.fits c hc
  rcases h.data_apart hb hc with hBefore | hAfter
  · exact apart_of_le (by omega) hcFits
  · exact apart_of_ge (by omega) (by omega)

theorem store (h : Space m head live cs) (hb : b ∈ live) {a : Nat}
    (ha : b.ptr ≤ a ∧ a < b.ptr + b.size) (v : Nat) : Space (store8 m a v) head live cs :=
  h.congr (h.store_headers hb ha v)

/-- Forgetting blocks needs no change of the heap. -/
theorem filter (h : Space m head live cs) (q : Block → Bool) :
    Space m head (live.filter q) cs where
  chunks := h.chunks
  head_eq := h.head_eq
  owner b hb := h.owner b (List.mem_of_mem_filter hb)
  small b hb := h.small b (List.mem_of_mem_filter hb)
  distinct := h.distinct.sublist (List.filter_sublist.map _)

theorem cons_small (h : Space m head live cs) {p : Nat} (hNew : ∀ b ∈ live, b.ptr ≠ p)
    (hLow : p + n ≤ head) : Space m head (⟨p, n⟩ :: live) cs where
  chunks := h.chunks
  head_eq := h.head_eq
  owner b hb hBig := by
    rcases List.mem_cons.mp hb with rfl | hb
    · have : head < p := hBig
      omega
    · exact h.owner b hb hBig
  small b hb hSmall := by
    rcases List.mem_cons.mp hb with rfl | hb
    · exact hLow
    · exact h.small b hb hSmall
  distinct := by
    rw [List.map_cons, List.nodup_cons]
    refine ⟨fun hMem => ?_, h.distinct⟩
    obtain ⟨b, hb, hPtr⟩ := List.mem_map.mp hMem
    exact hNew b hb hPtr

/-- No more than one block above `head` for every 13 bytes of the address space. -/
theorem count_big_le (h : Space m head live cs) :
    live.countP (fun b => head < b.ptr) * 13 ≤ 4294967296 := by
  have hChunk : ∀ b ∈ live.filter (fun b => head < b.ptr), b.ptr - 13 ∈ cs ∧ 13 ≤ b.ptr := by
    intro b hb
    obtain ⟨hLive, hBig⟩ := List.mem_filter.mp hb
    obtain ⟨c, hc, hPtr, -, -⟩ := h.owner b hLive (by simpa using hBig)
    exact ⟨by rwa [hPtr, Nat.add_sub_cancel], by omega⟩
  have hNodup : ((live.filter (fun b => head < b.ptr)).map fun b => b.ptr - 13).Nodup := by
    have hPtrs : (live.filter (fun b => head < b.ptr)).Pairwise fun b b' => b.ptr ≠ b'.ptr :=
      List.pairwise_map.mp (h.distinct.sublist (List.filter_sublist.map _))
    refine List.pairwise_map.mpr (hPtrs.imp_of_mem fun hb hb' hne => ?_)
    have := (hChunk _ hb).2
    have := (hChunk _ hb').2
    omega
  have hSub : (live.filter (fun b => head < b.ptr)).map (fun b => b.ptr - 13) ⊆ cs := by
    intro c hc
    obtain ⟨b, hb, rfl⟩ := List.mem_map.mp hc
    exact (hChunk b hb).1
  have hLength := (List.Nodup.subperm hNodup hSub).length_le
  have hAll := h.chunks.length_mul_le h.chunks.fits
  rw [List.length_map, ← List.countP_eq_length_filter] at hLength
  omega

end Space

end Juos.Kmm
