import Juos.Kmm.FastBins
import Juos.Kmm.Thread

/-!
# Which chunks are in use

The used chunks that the walk from `big_chunks` comes to are those of the live big blocks, and
`allocated_chunks` is their number, in every run that writes over no header: merging may leave
stale links behind, but never takes a used chunk out of the list. What the code does not guard
against is a chunk appended so high that its address wraps: at address zero it is taken for null,
and a pointer that wraps into the pool of small blocks is freed there.
-/

namespace Juos.Kmm

open Machine HeapSystem

/-! ## Lists of addresses -/

section Lists

variable {cs cs' : List Nat} {c : Nat} {p q : Nat → Bool}

theorem filter_perm_of_take (hNodup : cs.Nodup) (hc : c ∈ cs) (hp : p c = false) (hq : q c = true)
    (hOther : ∀ d ∈ cs, d ≠ c → q d = p d) : (cs.filter q).Perm (c :: cs.filter p) := by
  obtain ⟨pre, post, rfl⟩ := List.append_of_mem hc
  have hNot := (List.nodup_middle.mp hNodup).notMem
  have hSame {l : List Nat} (hl : ∀ d ∈ l, d ∈ pre ++ post) : l.filter q = l.filter p := by
    apply List.filter_congr
    intro d hd
    have hdc : d ≠ c := by
      rintro rfl
      exact hNot (hl d hd)
    exact hOther d (mem_middle.mpr (Or.inr (hl d hd))) hdc
  rw [List.filter_append, List.filter_append, List.filter_cons_of_pos hq,
    List.filter_cons_of_neg (by simp [hp]), hSame fun d hd => List.mem_append_left _ hd,
    hSame fun d hd => List.mem_append_right _ hd]
  exact List.perm_middle

theorem filter_of_sublist (hSub : cs'.Sublist cs) (hNodup : cs.Nodup)
    (hDropped : ∀ d ∈ cs, d ∉ cs' → p d = false) : cs'.filter p = cs.filter p := by
  induction hSub with
  | slnil => rfl
  | @cons cs' cs a hSub ih =>
    obtain ⟨ha, hNodup⟩ := List.nodup_cons.mp hNodup
    have hFree := hDropped a List.mem_cons_self fun hMem => ha (hSub.subset hMem)
    rw [List.filter_cons_of_neg (by simp [hFree])]
    exact ih hNodup fun d hd hNot => hDropped d (List.mem_cons_of_mem _ hd) hNot
  | @cons_cons cs' cs a hSub ih =>
    obtain ⟨ha, hNodup⟩ := List.nodup_cons.mp hNodup
    have hRest : cs'.filter p = cs.filter p := by
      apply ih hNodup
      intro d hd hNot
      apply hDropped d (List.mem_cons_of_mem _ hd)
      intro hMem
      rcases List.mem_cons.mp hMem with rfl | hMem
      · exact ha hd
      · exact hNot hMem
    rw [List.filter_cons, List.filter_cons, hRest]

end Lists

/-! ## Chunks and their pointers -/

/-- The pointer to the data of a chunk. -/
abbrev dataPtr (c : Nat) : Nat := ptrAdvance c sizeofBigChunk

theorem dataPtr_inj {c d : Nat} (hc : c < 4294967296) (hd : d < 4294967296)
    (h : dataPtr c = dataPtr d) : c = d := by
  unfold dataPtr ptrAdvance sizeofBigChunk at h
  omega

/-- `free` can tell the pointer from null and from the pointers to small blocks. -/
def Routed (start c : Nat) : Prop :=
  dataPtr c ≠ 0 ∧ ¬ (start ≤ dataPtr c ∧ dataPtr c ≤ bigStart start)

instance (start c : Nat) : Decidable (Routed start c) :=
  inferInstanceAs (Decidable (dataPtr c ≠ 0 ∧ ¬ (start ≤ dataPtr c ∧ dataPtr c ≤ bigStart start)))

/-- The used chunks of the list `cs` are those behind the pointers `ptrs`. -/
structure Owned (start : Nat) (m : Memory) (cs ptrs : List Nat) : Prop where
  thread : Thread m cs
  head_eq : cs.head? = some (bigStart start)
  routed : ∀ c ∈ cs, Routed start c
  owners : ((cs.filter (used m)).map dataPtr).Perm ptrs

namespace Owned

variable {start c req : Nat} {m m' : Memory} {cs ptrs : List Nat}

theorem mem_iff (h : Owned start m cs ptrs) (hc : c ∈ cs) : used m c = true ↔ dataPtr c ∈ ptrs := by
  rw [← h.owners.mem_iff, List.mem_map]
  constructor
  · intro hUsed
    exact ⟨c, List.mem_filter.mpr ⟨hc, hUsed⟩, rfl⟩
  · rintro ⟨d, hd, hEq⟩
    obtain ⟨hd, hUsed⟩ := List.mem_filter.mp hd
    rw [← dataPtr_inj (h.thread.lt d hd) (h.thread.lt c hc) hEq]
    exact hUsed

theorem chunk_of_mem (h : Owned start m cs ptrs) {p : Nat} (hp : p ∈ ptrs) :
    ∃ c ∈ cs, used m c = true ∧ dataPtr c = p := by
  obtain ⟨c, hc, hEq⟩ := List.mem_map.mp (h.owners.mem_iff.mpr hp)
  obtain ⟨hMem, hUsed⟩ := List.mem_filter.mp hc
  exact ⟨c, hMem, hUsed, hEq⟩

theorem nodup (h : Owned start m cs ptrs) : ptrs.Nodup := by
  apply h.owners.nodup_iff.mp
  apply List.Nodup.map_on ?_ (h.thread.nodup.filter _)
  intro c hc d hd hEq
  exact dataPtr_inj (h.thread.lt c (List.mem_filter.mp hc).1)
    (h.thread.lt d (List.mem_filter.mp hd).1) hEq

/-- There are fewer chunks than addresses. -/
theorem length_lt (h : Owned start m cs ptrs) : ptrs.length < 4294967296 := by
  have hAll : (0 :: cs).Nodup :=
    List.nodup_cons.mpr ⟨fun hMem => Nat.lt_irrefl 0 (h.thread.pos 0 hMem), h.thread.nodup⟩
  have hSub : (0 :: cs).Subperm (List.range 4294967296) := by
    apply hAll.subperm
    intro c hc
    rw [List.mem_range]
    rcases List.mem_cons.mp hc with rfl | hc
    · decide
    · exact h.thread.lt c hc
  have hLength := hSub.length_le
  rw [List.length_range, List.length_cons] at hLength
  have hUsed := List.length_filter_le (used m) cs
  rw [← h.owners.length_eq, List.length_map]
  omega

/-- Only headers matter. -/
theorem congr (h : Owned start m cs ptrs) (hAt : ∀ c ∈ cs, chunkAt m' c = chunkAt m c) :
    Owned start m' cs ptrs where
  thread := h.thread.congr (fun c hc => (header_eq (hAt c hc)).2.1)
    fun c hc => Or.inl (header_eq (hAt c hc)).1
  head_eq := h.head_eq
  routed := h.routed
  owners := by
    have hFilter : cs.filter (used m') = cs.filter (used m) :=
      List.filter_congr fun c hc => (header_eq (hAt c hc)).2.2.2
    rw [hFilter]
    exact h.owners

/-- A free chunk of the list is handed out. -/
theorem take (h : Owned start m cs ptrs) (hc : c ∈ cs) (hFree : used m c = false)
    (hSelf : ∃ n, chunkAt m' c = { chunkAt m c with size := n, used := true })
    (hOther : ∀ d ∈ cs, d ≠ c → chunkAt m' d = chunkAt m d) :
    Owned start m' cs (dataPtr c :: ptrs) := by
  obtain ⟨n, hSelf⟩ := hSelf
  refine ⟨?_, h.head_eq, h.routed, ?_⟩
  · apply h.thread.congr
    · intro d hd
      by_cases hdc : d = c
      · subst hdc
        exact next_of_chunkAt hSelf
      · exact (header_eq (hOther d hd hdc)).2.1
    · intro d hd
      left
      by_cases hdc : d = c
      · subst hdc
        exact prev_of_chunkAt hSelf
      · exact (header_eq (hOther d hd hdc)).1
  · have hPerm := filter_perm_of_take h.thread.nodup hc hFree (used_of_chunkAt hSelf)
      fun d hd hdc => (header_eq (hOther d hd hdc)).2.2.2
    exact (hPerm.map dataPtr).trans (h.owners.cons _)

/-- A chunk is appended where it overlaps no header. -/
theorem append {last : Nat} {pre : List Nat} (h : Owned start m (pre ++ [last]) ptrs)
    (hReq : req < 4294967296) (hPos : appendAddress m last ≠ 0)
    (hRouted : Routed start (appendAddress m last))
    (hApart : ∀ c ∈ pre ++ [last], Apart (appendAddress m last) 13 c 13) :
    Owned start (appendChunk m req last) (pre ++ [last] ++ [appendAddress m last])
      (dataPtr (appendAddress m last) :: ptrs) := by
  refine ⟨h.thread.append hReq hPos hApart, ?_, ?_, ?_⟩
  · have hHead := h.head_eq
    cases pre <;> simpa using hHead
  · intro c hc
    rcases List.mem_append.mp hc with hc | hc
    · exact h.routed c hc
    · rw [List.mem_singleton.mp hc]
      exact hRouted
  · have hOld : (pre ++ [last]).filter (used (appendChunk m req last)) =
        (pre ++ [last]).filter (used m) :=
      List.filter_congr fun d hd => h.thread.used_append hApart hd
    have hNew : used (appendChunk m req last) (appendAddress m last) = true :=
      used_of_chunkAt (chunkAt_append_new hReq (h.thread.lt last (by simp))
        (hApart last (by simp)).symm)
    rw [List.filter_append, hOld, List.filter_cons_of_pos hNew, List.filter_nil, List.map_append,
      List.map_singleton]
    exact (List.perm_append_singleton _ _).trans (h.owners.cons _)

/-- A used chunk is freed, and merged with the free chunks next to it. -/
theorem free (h : Owned start m cs ptrs) (hc : c ∈ cs) (hUsed : used m c = true) :
    ∃ cs', Owned start (freed m c) cs' (ptrs.filter fun p => p ≠ dataPtr c) := by
  have hMark := h.thread.mark hc
  have hSplit := h.thread
  have hAll := hc
  obtain ⟨pre, post, rfl⟩ := List.append_of_mem hc
  obtain ⟨post', hForwards⟩ := hMark.forwards
  obtain ⟨pre', hBackwards⟩ := hForwards.thread.backwards
  have hSub : (pre' ++ c :: post').Sublist (pre ++ c :: post) :=
    hBackwards.sublist.append (hForwards.sublist.cons_cons c)
  refine ⟨pre' ++ c :: post', hBackwards.thread, ?_, fun d hd => h.routed d (hSub.subset hd), ?_⟩
  · rw [hBackwards.head_eq, ← h.head_eq]
    cases pre <;> rfl
  · have hKept : (pre' ++ c :: post').filter (used (freed m c)) =
        (pre' ++ c :: post').filter (used (setUsed m c false)) := by
      apply List.filter_congr
      intro d hd
      have hd' : d ∈ pre ++ c :: post' := (hBackwards.sublist.append_right _).subset hd
      exact (hBackwards.used_eq d hd).trans (hForwards.used_eq d hd')
    have hDropped : (pre' ++ c :: post').filter (used (setUsed m c false)) =
        (pre ++ c :: post).filter (used (setUsed m c false)) := by
      apply filter_of_sublist hSub hSplit.nodup
      intro d hd hNot
      rcases mem_middle.mp hd with rfl | hd
      · exact absurd (by simp) hNot
      · rcases List.mem_append.mp hd with hd | hd
        · rw [← hForwards.used_eq d (List.mem_append_left _ hd)]
          exact hBackwards.dropped d hd fun hMem => hNot (List.mem_append_left _ hMem)
        · exact hForwards.dropped d hd fun hMem => hNot (by simp [hMem])
    have hTaken := filter_perm_of_take hSplit.nodup hAll
      (used_of_chunkAt (chunkAt_setUsed m c false)) hUsed
      fun d hd hdc => (hSplit.used_mark hAll hd hdc).symm
    have hPtrs := (hTaken.map dataPtr).symm.trans h.owners
    rw [List.map_cons] at hPtrs
    have hNot := (List.nodup_cons.mp (hPtrs.nodup_iff.mpr h.nodup)).1
    have hRest := hPtrs.filter fun p => p ≠ dataPtr c
    rw [List.filter_cons_of_neg (by simp), List.filter_eq_self.mpr ?_] at hRest
    · rw [hKept, hDropped]
      exact hRest
    · intro p hp
      simp only [ne_eq, decide_eq_true_eq]
      rintro rfl
      exact hNot hp

end Owned

/-! ## The heap -/

variable {ι : Type} {start : Nat} {d : ι} {s t : HeapSystem ι}

namespace HeapSystem

/-- Requests do not wrap, a header that is appended overlaps none on the walk, and programs write
to none. -/
def Undisturbed (s : HeapSystem ι) (x : ι × Call) : Prop :=
  match x.2 with
  | .malloc size => fastbinThreshold < size → size + 32 ≤ 4294967296 ∧ ∀ fuel last,
      place fuel s.mm.mappedHeap (s.mem x.1) (reqSize size) = some (.append last) →
        ∀ c, s.OnWalk x.1 c → Apart (appendAddress (s.mem x.1) last) 13 c 13
  | .free _ => True
  | .store a _ => ∀ c, s.OnWalk x.1 c → Apart a 1 c 13

/-- A chunk is not appended at address zero, nor where the pointer to its data is null or lies in
the pool of small blocks. -/
def AppendsRouted (start : Nat) (s : HeapSystem ι) (x : ι × Call) : Prop :=
  ∀ size, x.2 = .malloc size → fastbinThreshold < size → ∀ fuel last,
    place fuel s.mm.mappedHeap (s.mem x.1) (reqSize size) = some (.append last) →
      appendAddress (s.mem x.1) last ≠ 0 ∧ Routed start (appendAddress (s.mem x.1) last)

end HeapSystem

theorem Owned.onWalk {cs ptrs : List Nat} {c : Nat} (h : Owned start (s.mem d) cs ptrs)
    (hGlobals : Globals start s.mm) (hc : c ∈ cs) : s.OnWalk d c := by
  have hHead := h.head_eq
  cases cs with
  | nil => cases hHead
  | cons e cs =>
    obtain rfl : e = bigStart start := by simpa using hHead
    rw [OnWalk, hGlobals.bigChunks]
    exact h.thread.path_of_mem hc

theorem Owned.mem_of_onWalk {cs ptrs : List Nat} {c : Nat} (h : Owned start (s.mem d) cs ptrs)
    (hGlobals : Globals start s.mm) (hc : s.OnWalk d c) : c ∈ cs := by
  rw [OnWalk, hGlobals.bigChunks] at hc
  exact h.thread.mem_of_path (List.mem_of_head? h.head_eq) hc

/-! ### Deciding the conditions -/

/-- Decides that the `n` bytes at `a` overlap no header on the walk from `c`. -/
def apartNow (m : Memory) (a n : Nat) : Nat → Nat → Bool
  | 0, _ => false
  | fuel + 1, c => decide (Apart a n c 13) && (next m c == 0 || apartNow m a n fuel (next m c))

theorem apart_of_apartNow {m : Memory} {a n fuel c e : Nat} (h : apartNow m a n fuel c = true)
    (hPath : Relation.ReflTransGen (Forward (next m)) c e) : Apart a n e 13 := by
  induction fuel generalizing c with
  | zero => cases h
  | succ fuel ih =>
    simp only [apartNow, Bool.and_eq_true, Bool.or_eq_true, decide_eq_true_eq, beq_iff_eq] at h
    rcases Relation.ReflTransGen.cases_head hPath with rfl | ⟨f, ⟨hNext, hf⟩, hRest⟩
    · exact h.1
    · rw [hNext] at h
      exact ih (h.2.resolve_left hf) hRest

/-- If the chunk is appended, `q` holds of its address. -/
def appendIs (q : Memory → Nat → Bool) (m : Memory) (_ : Nat) : Placement → Bool
  | .append last => q m (appendAddress m last)
  | _ => true

/-- Decides `Undisturbed`, and that `q` holds of the addresses where chunks are appended. -/
def undisturbedNow (fuel : Nat) (q : Nat → Bool) (s : HeapSystem ι) (x : ι × Call) : Bool :=
  match x.2 with
  | .malloc size => decide (size + 32 ≤ 4294967296) && s.placementIs fuel (appendIs fun m a =>
      apartNow m a 13 fuel s.mm.mappedHeap.bigChunks && q a) x.1 (.malloc size)
  | .free _ => true
  | .store a _ => apartNow (s.mem x.1) a 1 fuel s.mm.mappedHeap.bigChunks

theorem append_of_undisturbedNow {fuel size : Nat} {q : Nat → Bool}
    (h : undisturbedNow fuel q s (d, .malloc size) = true) (hBig : fastbinThreshold < size)
    {fuel' last : Nat}
    (hPlace : place fuel' s.mm.mappedHeap (s.mem d) (reqSize size) = some (.append last)) :
    apartNow (s.mem d) (appendAddress (s.mem d) last) 13 fuel s.mm.mappedHeap.bigChunks = true ∧
      q (appendAddress (s.mem d) last) = true := by
  obtain ⟨-, hIs⟩ := Bool.and_eq_true_iff.mp h
  have hAppend := (placement_of_is hIs hBig).2 fuel' _ hPlace
  exact Bool.and_eq_true_iff.mp hAppend

theorem undisturbed_of_undisturbedNow {fuel : Nat} {q : Nat → Bool} {x : ι × Call}
    (h : undisturbedNow fuel q s x = true) : s.Undisturbed x := by
  obtain ⟨d, c⟩ := x
  cases c with
  | malloc size =>
    intro hBig
    constructor
    · exact of_decide_eq_true (Bool.and_eq_true_iff.mp h).1
    · intro fuel' last hPlace c hc
      exact apart_of_apartNow (append_of_undisturbedNow h hBig hPlace).1 hc
  | free ptr => trivial
  | store a v => exact fun c hc => apart_of_apartNow h hc

theorem appendsRouted_of_undisturbedNow {fuel : Nat} {x : ι × Call}
    (h : undisturbedNow fuel (fun a => a ≠ 0 ∧ Routed start a) s x = true) :
    s.AppendsRouted start x := by
  obtain ⟨d, c⟩ := x
  rintro size rfl hBig fuel' last hPlace
  exact of_decide_eq_true (append_of_undisturbedNow h hBig hPlace).2

/-! ### What is in use -/

variable [DecidableEq ι]

/-- The live pointers to big blocks. -/
def HeapSystem.bigPointers (s : HeapSystem ι) (d : ι) : List Nat :=
  ((s.liveIn d).filter fun b => fastbinThreshold < b.size).map Block.ptr

/-- The used chunks on the walk are those of the live big blocks, and they are counted. -/
structure HeapSystem.Accounted (s : HeapSystem ι) (d : ι) : Prop where
  used_iff : ∀ c, s.OnWalk d c → (used (s.mem d) c = true ↔ dataPtr c ∈ s.bigPointers d)
  owner : ∀ p ∈ s.bigPointers d, ∃ c, s.OnWalk d c ∧ used (s.mem d) c = true ∧ dataPtr c = p
  nodup : (s.bigPointers d).Nodup
  count : s.mm.mappedHeap.allocatedChunks = (s.bigPointers d).length
  first : ∀ fuel req c, place fuel s.mm.mappedHeap (s.mem d) req = some (.first c) →
    s.bigPointers d = []

/-- The invariant of the runs in the space `d`. -/
structure Balanced (start : Nat) (d : ι) (s : HeapSystem ι) : Prop where
  globals : Globals start s.mm
  owned : ∃ cs, Owned start (s.mem d) cs (s.bigPointers d)
  small : ∀ b ∈ s.liveIn d, b.size ≤ fastbinThreshold → start ≤ b.ptr ∧ b.ptr ≤ bigStart start
  count : s.mm.mappedHeap.allocatedChunks = (s.bigPointers d).length

theorem Balanced.accounted (h : Balanced start d s) : s.Accounted d := by
  obtain ⟨cs, hOwned⟩ := h.owned
  refine ⟨?_, ?_, hOwned.nodup, h.count, ?_⟩
  · intro c hc
    exact hOwned.mem_iff (hOwned.mem_of_onWalk h.globals hc)
  · intro p hp
    obtain ⟨c, hc, hUsed, hEq⟩ := hOwned.chunk_of_mem hp
    exact ⟨c, hOwned.onWalk h.globals hc, hUsed, hEq⟩
  · intro fuel req c hPlace
    rw [place] at hPlace
    split_ifs at hPlace with hNone
    · rw [h.count] at hNone
      exact List.length_eq_zero_iff.mp hNone
    · exact absurd hPlace searchHole_not_first

/-! ## Calls -/

section Calls

variable {mm : MemoryManager} {mem : ι → Memory} {b : Block}

theorem bigPointers_cons_small (hSmall : b.size ≤ fastbinThreshold) :
    (HeapSystem.mk mm mem ((d, b) :: s.live)).bigPointers d = s.bigPointers d := by
  unfold bigPointers liveIn
  rw [blocksIn_cons_self, List.filter_cons_of_neg (by simpa using hSmall)]

theorem bigPointers_cons_big (hBig : fastbinThreshold < b.size) :
    (HeapSystem.mk mm mem ((d, b) :: s.live)).bigPointers d = b.ptr :: s.bigPointers d := by
  unfold bigPointers liveIn
  rw [blocksIn_cons_self, List.filter_cons_of_pos (by simpa using hBig), List.map_cons]

theorem bigPointers_free (ptr : Nat) :
    (HeapSystem.mk mm mem (s.live.filter fun e => ¬ (e.1 = d ∧ e.2.ptr = ptr))).bigPointers d =
      (s.bigPointers d).filter fun p => p ≠ ptr := by
  unfold bigPointers liveIn
  rw [blocksIn_free_self, List.filter_map, List.filter_filter, List.filter_filter]
  congr 1
  apply List.filter_congr
  intro e _
  simp [Bool.and_comm]

theorem mem_bigPointers (hb : b ∈ s.liveIn d) (hBig : fastbinThreshold < b.size) :
    b.ptr ∈ s.bigPointers d :=
  List.mem_map_of_mem (List.mem_filter.mpr ⟨hb, by simpa using hBig⟩)

/-- The chunk that is picked is a free one of the list, or the list ends with it. -/
theorem Owned.placed {cs : List Nat} {fuel req : Nat} {p : Placement}
    (h : Owned start (s.mem d) cs (s.bigPointers d)) (hGlobals : Globals start s.mm)
    (hCount : s.mm.mappedHeap.allocatedChunks = (s.bigPointers d).length)
    (hPlace : place fuel s.mm.mappedHeap (s.mem d) req = some p) :
    (∃ c, p = .first c ∧ c ∈ cs ∧ used (s.mem d) c = false) ∨
      (∃ c, p = .hole c ∧ c ∈ cs ∧ used (s.mem d) c = false) ∨
      ∃ pre last, p = .append last ∧ cs = pre ++ [last] := by
  have hHead := h.head_eq
  rw [place, hGlobals.bigChunks] at hPlace
  split_ifs at hPlace with hNone
  · cases hPlace
    have hc : bigStart start ∈ cs := List.mem_of_head? hHead
    refine Or.inl ⟨_, rfl, hc, ?_⟩
    rw [hCount, List.length_eq_zero_iff] at hNone
    rw [← Bool.not_eq_true, h.mem_iff hc, hNone]
    exact List.not_mem_nil
  · cases cs with
    | nil => cases hHead
    | cons e cs =>
      obtain rfl : e = bigStart start := by simpa using hHead
      have hSplit : Thread (s.mem d) ([] ++ bigStart start :: cs) := h.thread
      rcases hSplit.found hPlace with ⟨c, hc, hp, hFree⟩ | ⟨last, hLast, hp⟩
      · exact Or.inr (Or.inl ⟨c, hp, hc, hFree⟩)
      · obtain ⟨pre, hPre⟩ := List.getLast?_eq_some_iff.mp hLast
        exact Or.inr (Or.inr ⟨pre, last, hp, hPre⟩)

namespace Balanced

/-- Neither the headers nor the big blocks change. -/
theorem of_same (h : Balanced start d s) (hGlobals : Globals start t.mm)
    (hCount : t.mm.mappedHeap.allocatedChunks = s.mm.mappedHeap.allocatedChunks)
    (hAt : ∀ c, s.OnWalk d c → chunkAt (t.mem d) c = chunkAt (s.mem d) c)
    (hPtrs : t.bigPointers d = s.bigPointers d)
    (hSmall : ∀ b ∈ t.liveIn d, b.size ≤ fastbinThreshold →
      start ≤ b.ptr ∧ b.ptr ≤ bigStart start) : Balanced start d t := by
  obtain ⟨cs, hOwned⟩ := h.owned
  refine ⟨hGlobals, ⟨cs, ?_⟩, hSmall, ?_⟩
  · rw [hPtrs]
    exact hOwned.congr fun c hc => hAt c (hOwned.onWalk h.globals hc)
  · rw [hCount, hPtrs]
    exact h.count

/-- A small block comes from the pool. -/
theorem malloc_small (h : Balanced start d s) {size : Nat} (hSmall : size ≤ fastbinThreshold) :
    Balanced start d ⟨(mallocFastbin s.mm).2, Function.update s.mem d (s.mem d),
      if (mallocFastbin s.mm).1 = 0 then s.live
      else (d, ⟨(mallocFastbin s.mm).1, size⟩) :: s.live⟩ := by
  rw [Function.update_eq_self]
  rcases mallocFastbin_spec h.globals with ⟨i, hi, -, -, hTake⟩ | ⟨-, hFull⟩
  · rw [hTake]
    by_cases hNull : start + 64 * i = 0
    · simp only [hNull, if_true]
      exact h.of_same (h.globals.setSlot _ _) rfl (fun _ _ => rfl) rfl h.small
    · simp only [hNull, if_false]
      refine h.of_same (h.globals.setSlot _ _) rfl (fun _ _ => rfl)
        (bigPointers_cons_small hSmall) ?_
      intro b hb hSize
      unfold liveIn at hb
      rw [blocksIn_cons_self] at hb
      rcases List.mem_cons.mp hb with rfl | hb
      · unfold bigStart
        dsimp only
        omega
      · exact h.small b hb hSize
  · rw [hFull]
    exact h.of_same h.globals rfl (fun _ _ => rfl) rfl h.small

/-- The chunk `c` was handed out, and the list holds it. -/
theorem handed (h : Balanced start d s) {m : Memory} {cs : List Nat} {c size : Nat}
    (hBig : fastbinThreshold < size) (hc : c ∈ cs)
    (hOwned : Owned start m cs (dataPtr c :: s.bigPointers d)) :
    Balanced start d ⟨{ s.mm with mappedHeap := if c ≠ 0 then
        { s.mm.mappedHeap with
          allocatedChunks := (s.mm.mappedHeap.allocatedChunks + 1) % 4294967296 }
        else s.mm.mappedHeap }, Function.update s.mem d m,
      if dataPtr c = 0 then s.live else (d, ⟨dataPtr c, size⟩) :: s.live⟩ := by
  have hPos : c ≠ 0 := (hOwned.thread.pos c hc).ne'
  have hPtr : dataPtr c ≠ 0 := (hOwned.routed c hc).1
  have hLength := hOwned.length_lt
  rw [List.length_cons] at hLength
  simp only [ne_eq, hPos, not_false_eq_true, if_true, hPtr, if_false]
  refine ⟨h.globals.setAllocated _, ⟨cs, ?_⟩, ?_, ?_⟩
  · rw [bigPointers_cons_big hBig]
    simpa using hOwned
  · intro b hb hSmall
    unfold liveIn at hb
    rw [blocksIn_cons_self] at hb
    rcases List.mem_cons.mp hb with rfl | hb
    · exact absurd hSmall (Nat.not_le.mpr hBig)
    · exact h.small b hb hSmall
  · rw [bigPointers_cons_big hBig, List.length_cons]
    dsimp only
    rw [h.count, Nat.mod_eq_of_lt hLength]

theorem malloc_big (h : Balanced start d s) {size fuel : Nat} {r : Nat × Heap × Memory}
    (hBig : fastbinThreshold < size) (hUndisturbed : s.Undisturbed (d, .malloc size))
    (hRouted : s.AppendsRouted start (d, .malloc size))
    (hRun : mallocBig fuel s.mm.mappedHeap (s.mem d) (reqSize size) = some r) :
    Balanced start d ⟨{ s.mm with mappedHeap := r.2.1 }, Function.update s.mem d r.2.2,
      if r.1 = 0 then s.live else (d, ⟨r.1, size⟩) :: s.live⟩ := by
  obtain ⟨hWrap, hApart⟩ := hUndisturbed hBig
  have hNoWrap : size + 20 < 4294967296 := by omega
  obtain ⟨hReq, hReq'⟩ := reqSize_bounds hNoWrap
  have hMin : bigchunkMinSpace ≤ reqSize size := by
    unfold bigchunkMinSpace sizeofBigChunk fastbinThreshold at *
    omega
  have hReqLt : reqSize size < 4294967296 := by omega
  obtain ⟨cs, hOwned⟩ := h.owned
  obtain ⟨p, hPlace, hPtr, hHeap, hMem⟩ := mallocBig_eq_some hRun
  rw [hPtr, hHeap, hMem]
  rcases hOwned.placed h.globals h.count hPlace with
    ⟨c, rfl, hc, hFree⟩ | ⟨c, rfl, hc, hFree⟩ | ⟨pre, last, rfl, rfl⟩
  · have hTaken := hOwned.take hc hFree ⟨_, chunkAt_putFirst hReqLt⟩ fun e he hne =>
      chunkAt_putFirst_of_apart (hOwned.thread.apart c hc e he hne.symm)
    dsimp only [putChunk]
    exact h.handed hBig hc hTaken
  · have hTaken := hOwned.take hc hFree (chunkAt_reuseHole hMin hReqLt) fun e he hne =>
      chunkAt_reuseHole_of_apart hMin hReqLt (hOwned.thread.apart c hc e he hne.symm)
    dsimp only [putChunk]
    exact h.handed hBig hc hTaken
  · obtain ⟨hPos, hRoute⟩ := hRouted size rfl hBig fuel last hPlace
    have hNew := hOwned.append hReqLt hPos hRoute
      fun c hc => hApart fuel last hPlace c (hOwned.onWalk h.globals hc)
    have hMem : appendAddress (s.mem d) last ∈ pre ++ [last] ++ [appendAddress (s.mem d) last] := by
      simp
    dsimp only [putChunk]
    exact h.handed hBig hMem hNew

theorem routed (h : Balanced start d s) {p : Nat} (hp : p ∈ s.bigPointers d) :
    ¬ (start ≤ p ∧ p ≤ bigStart start) := by
  obtain ⟨cs, hOwned⟩ := h.owned
  obtain ⟨c, hc, -, rfl⟩ := hOwned.chunk_of_mem hp
  exact (hOwned.routed c hc).2

theorem small_of_free (h : Balanced start d s) {ptr : Nat} {mm : MemoryManager}
    {mem : ι → Memory} {b : Block}
    (hb : b ∈ (HeapSystem.mk mm mem
      (s.live.filter fun e => ¬ (e.1 = d ∧ e.2.ptr = ptr))).liveIn d)
    (hSmall : b.size ≤ fastbinThreshold) : start ≤ b.ptr ∧ b.ptr ≤ bigStart start := by
  unfold liveIn at hb
  rw [blocksIn_free_self] at hb
  exact h.small b (List.mem_filter.mp hb).1 hSmall

/-- A pointer to a small block gives its slot back. -/
theorem free_small (h : Balanced start d s) {ptr : Nat}
    (hPtr : start ≤ ptr ∧ ptr ≤ bigStart start) :
    Balanced start d ⟨(Kmm.free s.mm (s.mem d) ptr).1,
      Function.update s.mem d (Kmm.free s.mm (s.mem d) ptr).2,
      s.live.filter fun e => ¬ (e.1 = d ∧ e.2.ptr = ptr)⟩ := by
  rw [Kmm.free, h.globals.fastBins, h.globals.bigChunks, if_pos hPtr, Function.update_eq_self]
  refine h.of_same (h.globals.setSlot _ _) rfl (fun _ _ => rfl) ?_ fun b => h.small_of_free
  rw [bigPointers_free, List.filter_eq_self]
  intro p hp
  have hNe : p ≠ ptr := by
    rintro rfl
    exact h.routed hp hPtr
  simpa using hNe

/-- A pointer to a big block gives its chunk back. -/
theorem free_big (h : Balanced start d s) {ptr : Nat} (hPtr : ptr ∈ s.bigPointers d) :
    Balanced start d ⟨(Kmm.free s.mm (s.mem d) ptr).1,
      Function.update s.mem d (Kmm.free s.mm (s.mem d) ptr).2,
      s.live.filter fun e => ¬ (e.1 = d ∧ e.2.ptr = ptr)⟩ := by
  obtain ⟨cs, hOwned⟩ := h.owned
  obtain ⟨c, hc, hUsed, rfl⟩ := hOwned.chunk_of_mem hPtr
  obtain ⟨cs', hFreed⟩ := hOwned.free hc hUsed
  have hLength := hOwned.length_lt
  have hPos := List.length_pos_of_mem hPtr
  rw [Kmm.free, h.globals.fastBins, h.globals.bigChunks, if_neg (h.routed hPtr)]
  dsimp only
  rw [freeBig_fst, freeBig_snd _ _ (hOwned.thread.lt c hc)]
  refine ⟨h.globals.setAllocated _, ⟨cs', ?_⟩, fun b => h.small_of_free, ?_⟩
  · rw [bigPointers_free]
    simpa using hFreed
  · have hErase : (s.bigPointers d).filter (fun p => p ≠ dataPtr c) =
        (s.bigPointers d).erase (dataPtr c) := by
      rw [hOwned.nodup.erase_eq_filter]
      apply List.filter_congr
      intro p _
      rw [Bool.eq_iff_iff]
      simp
    rw [bigPointers_free, hErase, List.length_erase_of_mem hPtr]
    dsimp only
    rw [h.count, ptrSub_of_le hPos hLength]

theorem free (h : Balanced start d s) {ptr : Nat} (hLegal : s.Legal d (.free ptr)) :
    Balanced start d ⟨(Kmm.free s.mm (s.mem d) ptr).1,
      Function.update s.mem d (Kmm.free s.mm (s.mem d) ptr).2,
      s.live.filter fun e => ¬ (e.1 = d ∧ e.2.ptr = ptr)⟩ := by
  obtain ⟨b, hb, rfl⟩ := hLegal
  rcases Nat.lt_or_ge fastbinThreshold b.size with hBig | hSmall
  · exact h.free_big (mem_bigPointers hb hBig)
  · exact h.free_small (h.small b hb hSmall)

theorem step (h : Balanced start d s) {c : Call} (hUndisturbed : s.Undisturbed (d, c))
    (hRouted : s.AppendsRouted start (d, c)) (hStep : Step s (d, c) t) : Balanced start d t := by
  obtain ⟨hLegal, fuel, hCall⟩ := hStep
  cases c with
  | malloc size =>
    obtain ⟨r, hMalloc, rfl⟩ := Option.map_eq_some_iff.mp hCall
    unfold malloc at hMalloc
    split_ifs at hMalloc with hZero hSmall
    · cases hMalloc
      rw [Function.update_eq_self]
      exact h
    · cases hMalloc
      exact h.malloc_small hSmall
    · obtain ⟨r', hBig, rfl⟩ := Option.map_eq_some_iff.mp hMalloc
      exact h.malloc_big (Nat.not_le.mp hSmall) hUndisturbed hRouted hBig
  | free ptr =>
    cases hCall
    exact h.free hLegal
  | store a v =>
    cases hCall
    refine h.of_same h.globals rfl ?_ rfl h.small
    intro c hc
    show chunkAt (Function.update s.mem d (store8 (s.mem d) a v) d) c = _
    rw [Function.update_self]
    exact chunkAt_congr (sameOn_store8 _ v (hUndisturbed c hc))

end Balanced

end Calls

/-! ## Runs -/

section Runs

variable {stop max : Nat} {isKernel rw : Bool} {mm : MemoryManager} {mem : ι → Memory}

theorem balanced_boot
    (hInit : memoryManagerInitialize start stop max isKernel rw = some mm)
    (hRegion : start + 6813 ≤ stop) (hStop : stop < 4294967296) (hHead : HeadClear start (mem d))
    (hFree : used (mem d) (bigStart start) = false) : Balanced start d (boot mm mem) := by
  obtain ⟨hGlobals, hNone, -⟩ := globals_of_initialize hInit hRegion hStop
  have hThread : Thread (mem d) [bigStart start] := (Space.single hHead hGlobals.fits).chunks.thread
  have hRouted : Routed start (bigStart start) := by
    unfold Routed dataPtr ptrAdvance sizeofBigChunk bigStart
    omega
  refine ⟨hGlobals, ⟨[bigStart start], hThread, rfl, ?_, ?_⟩, nofun, hNone⟩
  · intro c hc
    rw [List.mem_singleton.mp hc]
    exact hRouted
  · have hNotUsed : [bigStart start].filter (used (mem d)) = [] :=
      List.filter_cons_of_neg (by simp [hFree])
    rw [boot, hNotUsed]
    exact .nil

/-- As long as appended chunks can be told from null and from the pool, what is in use is known. -/
theorem accounted_of_run {xs : List (ι × Call)}
    (hInit : memoryManagerInitialize start stop max isKernel rw = some mm)
    (hRegion : start + 6813 ≤ stop) (hStop : stop < 4294967296) (hHead : HeadClear start (mem d))
    (hFree : used (mem d) (bigStart start) = false)
    (hRun : Run (Guarded Step fun s x => x.1 = d ∧ s.Undisturbed x ∧ s.AppendsRouted start x)
      (boot mm mem) xs t) : t.Accounted d := by
  have hBalanced : Balanced start d t := by
    apply hRun.invariant
    · exact balanced_boot hInit hRegion hStop hHead hFree
    · rintro s ⟨e, c⟩ s' h ⟨⟨rfl, hUndisturbed, hRouted⟩, hStep⟩
      exact h.step hUndisturbed hRouted hStep
  exact hBalanced.accounted

end Runs

/-! ## Runs on concrete frames -/

/-- Chunks are appended, freed, merged and reused, and a program writes into its block. -/
theorem accounted_of_run_kernel : ∃ t,
    kernelHeap (undisturbedNow 8 fun a => a ≠ 0 ∧ Routed 0xC0000000 a)
      [.malloc 100, .malloc 200, .malloc 300, .malloc 20, .store 0xC0001B20 7, .free 0xC0001A9D,
        .free 0xC0001B15, .malloc 90, .malloc 100] = some t ∧ t.Accounted () := by
  have hSome : (kernelHeap (undisturbedNow 8 fun a => a ≠ 0 ∧ Routed 0xC0000000 a)
      [.malloc 100, .malloc 200, .malloc 300, .malloc 20, .store 0xC0001B20 7, .free 0xC0001A9D,
        .free 0xC0001B15, .malloc 90, .malloc 100]).isSome := by
    decide +kernel
  have hOk : ∀ (s : HeapSystem Unit) (x : Unit × Call),
      undisturbedNow 8 (fun a => a ≠ 0 ∧ Routed 0xC0000000 a) s x = true →
        x.1 = () ∧ s.Undisturbed x ∧ s.AppendsRouted 0xC0000000 x := by
    intro s x h
    exact ⟨rfl, undisturbed_of_undisturbedNow h, appendsRouted_of_undisturbedNow h⟩
  obtain ⟨t, ht⟩ := Option.isSome_iff_exists.mp hSome
  obtain ⟨mm, hInit, hRun⟩ := run_of_kernelHeap hOk ht
  exact ⟨t, ht, accounted_of_run hInit (by decide) (by decide)
    ⟨by decide +kernel, by decide +kernel⟩ (by decide +kernel) hRun⟩

/-- The second chunk is appended at address zero: it is marked used and handed out, but neither
counted nor on the walk. -/
theorem not_accounted_of_wrapped : ∃ mm t,
    memoryManagerInitialize 0xC0000000 0xC1000000 0xCFFFF000 true true = some mm ∧
    HeadClear 0xC0000000 (fun _ => 0) ∧ used (fun _ => 0) (bigStart 0xC0000000) = false ∧
    Run (Guarded Step fun s x => x.1 = () ∧ s.Undisturbed x) (boot mm fun _ _ => 0)
      [((), .malloc 0x3FFFE55C), ((), .malloc 100)] t ∧
    ¬ t.Accounted () := by
  have hEnd : (kernelHeap (undisturbedNow 8 fun _ => true)
      [.malloc 0x3FFFE55C, .malloc 100]).map
        (fun t => (t.bigPointers (), t.mm.mappedHeap.allocatedChunks)) =
      some ([13, 0xC0001A9D], 1) := by
    decide +kernel
  obtain ⟨t, ht, hEq⟩ := Option.map_eq_some_iff.mp hEnd
  simp only [Prod.mk.injEq] at hEq
  obtain ⟨hPtrs, hCount⟩ := hEq
  have hOk : ∀ (s : HeapSystem Unit) (x : Unit × Call),
      undisturbedNow 8 (fun _ => true) s x = true → x.1 = () ∧ s.Undisturbed x := by
    intro s x h
    exact ⟨rfl, undisturbed_of_undisturbedNow h⟩
  obtain ⟨mm, hInit, hRun⟩ := run_of_kernelHeap hOk ht
  refine ⟨mm, t, hInit, ⟨by decide +kernel, by decide +kernel⟩, by decide +kernel, hRun, ?_⟩
  intro hAccounted
  have hAll := hAccounted.count
  rw [hPtrs, hCount] at hAll
  cases hAll

end Juos.Kmm
