import Juos.Kmm.Safety

/-!
# Where the heap ends

`malloc` never compares an address with `end_address` or `max_address`, and nothing grows the
heap, so a request is answered from beyond the region as soon as there is no room for it: behind
the first header while no chunk is in use, later in a free chunk or behind the last chunk and its
`size`, which reuse and merging have changed. `inRegion_iff_room` shows that this is the exact
condition, in every run whose earlier requests met it.

A reused chunk always fits as long as the chunks placed before did: holes lie between headers, so
the last header bounds them (`Inside.hole`).
-/

namespace Juos.Kmm

open Machine HeapSystem

variable {ι : Type} [DecidableEq ι] {start stop max : Nat} {isKernel rw : Bool}
  {mm : MemoryManager}

/-- What the region promises of the answer `p` to a request of `size` bytes: it is null, or the
data and the header of a big chunk before it lie in the region. -/
def InRegion (start stop size p : Nat) : Prop :=
  p = 0 ∨ start + (if size ≤ fastbinThreshold then 0 else sizeofBigChunk) ≤ p ∧ p + size ≤ stop

/-- The address of the header, as the machine computes it. -/
def headerAddress (m : Memory) : Placement → Nat
  | .first c => c
  | .hole c => c
  | .append last => ptrAdvance last (size m last)

namespace HeapSystem

/-- A free chunk on the walk that has room for `req` bytes up to its successor. -/
def FreeChunk (s : HeapSystem ι) (d : ι) (req c : Nat) : Prop :=
  s.OnWalk d c ∧ used (s.mem d) c = false ∧ next (s.mem d) c ≠ 0 ∧ c + req ≤ next (s.mem d) c

/-- The heap has room below `stop` for a big request, which does not wrap when it is rounded. -/
def Room (stop : Nat) (s : HeapSystem ι) (d : ι) : Call → Prop
  | .malloc n => fastbinThreshold < n → n + 20 < 4294967296 ∧
      if s.mm.mappedHeap.allocatedChunks = 0 then s.mm.mappedHeap.bigChunks + 13 + n ≤ stop
      else (∃ c, s.FreeChunk d (reqSize n) c) ∨
        ∀ c, s.OnWalk d c → next (s.mem d) c = 0 → c + size (s.mem d) c + 13 + n ≤ stop
  | _ => True

/-- The address behind the last chunk and its `size` does not wrap. -/
def LastFits (s : HeapSystem ι) (d : ι) : Prop :=
  ∀ c, s.OnWalk d c → next (s.mem d) c = 0 → c + size (s.mem d) c + 13 < 4294967296

/-- The request does not wrap when it is rounded, and a chunk that is not reused ends below
`limit`. -/
def EndsBelow (limit : Nat) (s : HeapSystem ι) (d : ι) : Call → Prop
  | .malloc size => fastbinThreshold < size → size + 20 < 4294967296 ∧
      ∀ fuel p, place fuel s.mm.mappedHeap (s.mem d) (reqSize size) = some p →
        match p with
        | .hole _ => True
        | p => chunkAddress (s.mem d) p + 13 + size ≤ limit
  | _ => True

end HeapSystem

/-! ## The answer -/

theorem putChunk_fst (m : Memory) (req : Nat) (p : Placement) :
    (putChunk m req p).1 = headerAddress m p := by
  cases p <;> rfl

theorem searchHole_not_first {m : Memory} {req fuel curr c : Nat} :
    searchHole m req fuel curr ≠ some (.first c) := by
  induction fuel generalizing curr with
  | zero =>
    intro h
    cases h
  | succ fuel ih =>
    rw [searchHole]
    split
    · intro h
      cases h
    · split
      · intro h
        cases h
      · exact ih

theorem place_first {fuel req c : Nat} {h : Heap} {m : Memory}
    (hPlace : place fuel h m req = some (.first c)) : c = h.bigChunks := by
  unfold place at hPlace
  split at hPlace
  · cases hPlace
    rfl
  · exact absurd hPlace searchHole_not_first

/-- A small request is answered from the fast bin, which the region holds. -/
theorem mallocFastbin_inRegion (h : Globals start mm) (hRegion : start + 6813 ≤ stop) {size : Nat}
    (hSmall : size ≤ fastbinThreshold) : InRegion start stop size (mallocFastbin mm).1 := by
  rcases mallocFastbin_cases mm with hFull | ⟨i, hi, -, hTake⟩
  · exact Or.inl (by rw [hFull])
  · have hFits := h.fits
    rw [h.binSize] at hi
    have hAddress : ptrAdvance mm.mappedHeap.fastBins (i * mm.fastBin.chunkSize / 4 * 4) =
        start + 64 * i := by
      rw [h.fastBins, h.chunkSize, ptrAdvance_of_lt]
      · omega
      · unfold bigStart at hFits
        omega
    apply Or.inr
    rw [hTake, if_pos hSmall, hAddress]
    unfold fastbinThreshold at hSmall
    omega

/-! ## Runs whose calls find room -/

/-- The heap of `d` is sound and no header reaches past `limit`. -/
structure Inside (start limit : Nat) (d : ι) (s : HeapSystem ι) : Prop where
  sound : Sound start {d} s
  headers : ∀ cs, Space (s.mem d) (bigStart start) (s.liveIn d) cs → ∀ c ∈ cs, c + 13 ≤ limit

theorem Inside.boot {d : ι} {mem : ι → Memory} (hGlobals : Globals start mm)
    (hNone : mm.mappedHeap.allocatedChunks = 0) (hHead : HeadClear start (mem d))
    (hRegion : start + 6813 ≤ stop) : Inside start stop d (boot mm mem) := by
  refine ⟨.boot hGlobals hNone (by rintro e rfl; exact hHead), fun cs hSpace c hc => ?_⟩
  have hSingle := Space.single hHead hGlobals.fits
  obtain rfl := hSpace.chunks.toLinked.unique hSingle.chunks.toLinked hSpace.head_eq
  obtain rfl : c = bigStart start := by simpa using hc
  unfold bigStart
  omega

namespace Inside

variable {limit : Nat} {d : ι} {s t : HeapSystem ι}

/-- A hole leaves room up to the header behind it. -/
theorem hole (h : Inside start limit d s) {fuel size c : Nat}
    (hPlace : place fuel s.mm.mappedHeap (s.mem d) (reqSize size) = some (.hole c)) :
    start ≤ c ∧ c + reqSize size + 13 ≤ limit := by
  obtain ⟨cs, hSpace⟩ := h.sound.space d rfl
  unfold place at hPlace
  split at hPlace
  · cases hPlace
  · rw [h.sound.globals.bigChunks] at hPlace
    obtain ⟨hc, hNext, -, hLarge⟩ := hSpace.searchHole_found hPlace
    obtain ⟨hMem, hGap⟩ := hSpace.chunks.next_mem hc hNext
    have hEnd := h.headers cs hSpace _ hMem
    have hAbove := hSpace.head_le hc
    unfold bigStart at hAbove
    omega

theorem fits (h : Inside start limit d s) (hLimit : limit + 8 ≤ 4294967296) {c : Call}
    (hEnds : s.EndsBelow limit d c) : s.Fits 4294967296 d c := by
  cases c with
  | malloc size =>
    intro hBig
    obtain ⟨hWrap, hAll⟩ := hEnds hBig
    obtain ⟨-, hHigh⟩ := reqSize_bounds hWrap
    refine ⟨hWrap, fun fuel p hPlace => ?_⟩
    have hHere := hAll fuel p hPlace
    cases p with
    | first c =>
      simp only at hHere
      omega
    | hole c =>
      have := (h.hole hPlace).2
      simp only [chunkAddress]
      omega
    | append last =>
      simp only at hHere
      omega
  | free ptr => trivial
  | store a v => trivial

theorem step (h : Inside start limit d s) (hLimit : limit + 8 ≤ 4294967296) {c : Call}
    (hStep : Step s (d, c) t) (hSafe : s.Placeable d c) (hEnds : s.EndsBelow limit d c) :
    Inside start limit d t := by
  have hFits := h.fits hLimit hEnds
  refine ⟨h.sound.step rfl hStep hFits hSafe h.sound.count_lt, fun cs' hSpace' => ?_⟩
  obtain ⟨cs, hSpace⟩ := h.sound.space d rfl
  obtain ⟨cs₁, hChunks, hHead, hSub⟩ := h.sound.headers_step hStep hFits hSafe hSpace
  obtain rfl : cs' = cs₁ := hSpace'.chunks.toLinked.unique hChunks.toLinked
    (hSpace'.head_eq.trans hHead.symm)
  intro a ha
  rcases hSub a ha with hOld | ⟨size, fuel, p, rfl, hBig, hPlace, rfl⟩
  · exact h.headers cs hSpace a hOld
  · obtain ⟨hWrap, hAll⟩ := hEnds hBig
    have hHere := hAll fuel p hPlace
    cases p with
    | first c =>
      simp only at hHere
      omega
    | hole c =>
      have := (h.hole hPlace).2
      simp only [chunkAddress]
      omega
    | append last =>
      simp only at hHere
      omega

/-- Where the chunk for a request begins. -/
theorem start_le (h : Inside start limit d s) {fuel n : Nat} {p : Placement}
    (hPlace : place fuel s.mm.mappedHeap (s.mem d) (reqSize n) = some p) :
    start ≤ chunkAddress (s.mem d) p := by
  obtain ⟨cs, hSpace⟩ := h.sound.space d rfl
  have hAbove : ∀ c ∈ cs, start ≤ c := fun c hc => by
    have := hSpace.head_le hc
    unfold bigStart at this
    omega
  unfold place at hPlace
  split at hPlace
  · cases hPlace
    rw [h.sound.globals.bigChunks]
    exact hAbove _ hSpace.head_mem
  · rw [h.sound.globals.bigChunks] at hPlace
    have hFound := hSpace.searchHole_found hPlace
    cases p with
    | first c => exact absurd hFound id
    | hole c => exact hAbove c hFound.1
    | append last => exact (hAbove last (List.mem_of_getLast? hFound.1)).trans (Nat.le_add_right ..)

/-- A chunk is appended behind the last one of the walk. -/
theorem last_of_append (h : Inside start limit d s) {fuel n last : Nat}
    (hPlace : place fuel s.mm.mappedHeap (s.mem d) (reqSize n) = some (.append last)) :
    s.OnWalk d last ∧ next (s.mem d) last = 0 := by
  obtain ⟨cs, hSpace⟩ := h.sound.space d rfl
  unfold place at hPlace
  split at hPlace
  · cases hPlace
  · rw [h.sound.globals.bigChunks] at hPlace
    have hLast := (hSpace.searchHole_found hPlace).1
    exact ⟨(h.sound.onWalk_iff hSpace).mpr (List.mem_of_getLast? hLast),
      hSpace.chunks.last last hLast⟩

/-- A request finds room exactly if it is sent to a hole or its new chunk ends below the limit. -/
theorem room_iff (h : Inside start limit d s) (hLimit : limit + 8 ≤ 4294967296) (n : Nat) :
    s.Room limit d (.malloc n) ↔ s.EndsBelow limit d (.malloc n) := by
  refine forall_congr' fun _ => and_congr_right fun _ => ?_
  by_cases hNone : s.mm.mappedHeap.allocatedChunks = 0
  · rw [if_pos hNone]
    simp only [place, if_pos hNone, Option.some.injEq]
    constructor
    · rintro hRoom _ _ rfl
      exact hRoom
    · exact fun hEnds => hEnds 0 _ rfl
  · rw [if_neg hNone]
    simp only [place, if_neg hNone, h.sound.globals.bigChunks]
    obtain ⟨cs, hSpace⟩ := h.sound.space d rfl
    obtain ⟨fuel, p, hSearch⟩ := hSpace.searchHole_total (reqSize n)
    have hFound := hSpace.searchHole_found hSearch
    have hAll : ∀ q : Placement → Prop, (∀ fuel' p',
        searchHole (s.mem d) (reqSize n) fuel' (bigStart start) = some p' → q p') ↔ q p :=
      fun q => ⟨fun hq => hq fuel p hSearch, fun hq fuel' p' hp' =>
        searchHole_unique hSearch hp' ▸ hq⟩
    rw [hAll fun p => match p with
      | .hole _ => True
      | p => chunkAddress (s.mem d) p + 13 + n ≤ limit]
    cases p with
    | first c => exact absurd hFound id
    | hole c =>
      obtain ⟨hc, hNext, hFree, hLarge⟩ := hFound
      have hGap := (hSpace.chunks.next_mem hc hNext).2
      have hOn := (h.sound.onWalk_iff hSpace).mpr hc
      exact iff_of_true (Or.inl ⟨c, hOn, hFree, hNext, by omega⟩) trivial
    | append last =>
      obtain ⟨hLast, hSmall⟩ := hFound
      have hEnd : next (s.mem d) last = 0 := hSpace.chunks.last last hLast
      constructor
      · rintro (⟨c, hc, hFree, hNext, hLarge⟩ | hRoom)
        · rw [h.sound.onWalk_iff hSpace] at hc
          have hBelow := h.headers cs hSpace _ (hSpace.chunks.next_mem hc hNext).1
          have := hSmall c hc hNext hFree (by omega)
          omega
        · exact hRoom last ((h.sound.onWalk_iff hSpace).mpr (List.mem_of_getLast? hLast)) hEnd
      · intro hRoom
        refine Or.inr fun c hc hNext => ?_
        rw [h.sound.onWalk_iff hSpace] at hc
        have hSame : c = last := by
          by_contra hne
          have hMem := List.mem_of_getLast? hLast
          rcases Nat.lt_or_gt_of_ne hne with hLt | hGt
          · exact (hSpace.chunks.next_le hc hMem hLt).1 hNext
          · exact (hSpace.chunks.next_le hMem hc hGt).1 hEnd
        rwa [hSame]

theorem endsBelow (h : Inside start limit d s) (hLimit : limit + 8 ≤ 4294967296) {c : Call}
    (hRoom : s.Room limit d c) : s.EndsBelow limit d c := by
  cases c with
  | malloc n => exact (h.room_iff hLimit n).mp hRoom
  | free ptr => trivial
  | store a v => trivial

/-- The address of the chunk does not wrap, if the one behind the last chunk does not. -/
theorem address_lt (h : Inside start limit d s) (hLimit : limit + 8 ≤ 4294967296) {fuel n : Nat}
    {p : Placement} (hPlace : place fuel s.mm.mappedHeap (s.mem d) (reqSize n) = some p)
    (hLast : ∀ last, p = .append last → last + size (s.mem d) last + 13 < 4294967296) :
    chunkAddress (s.mem d) p + 13 < 4294967296 := by
  obtain ⟨cs, hSpace⟩ := h.sound.space d rfl
  cases p with
  | first c =>
    have := h.headers cs hSpace _ hSpace.head_mem
    have hHead := place_first hPlace
    rw [h.sound.globals.bigChunks] at hHead
    simp only [chunkAddress]
    omega
  | hole c =>
    have := (h.hole hPlace).2
    simp only [chunkAddress]
    omega
  | append last => exact hLast last rfl

/-- A request of this size that is placed at `p` is answered from inside the region exactly if its
chunk ends below the limit. -/
theorem inRegion_iff (h : Inside start limit d s) (hLimit : limit + 8 ≤ 4294967296) {fuel n : Nat}
    {p : Placement} (hBig : fastbinThreshold < n)
    (hPlace : place fuel s.mm.mappedHeap (s.mem d) (reqSize n) = some p)
    (hLt : chunkAddress (s.mem d) p + 13 < 4294967296) :
    InRegion start limit n (ptrAdvance (headerAddress (s.mem d) p) sizeofBigChunk) ↔
      s.EndsBelow limit d (.malloc n) := by
  have hHeader : headerAddress (s.mem d) p = chunkAddress (s.mem d) p := by
    cases p with
    | append last => exact ptrAdvance_of_lt (Nat.lt_of_le_of_lt (Nat.le_add_right ..) hLt)
    | _ => rfl
  have hAbove := h.start_le hPlace
  have hRegion : InRegion start limit n (ptrAdvance (headerAddress (s.mem d) p) sizeofBigChunk) ↔
      chunkAddress (s.mem d) p + 13 + n ≤ limit := by
    rw [hHeader, InRegion, if_neg (Nat.not_le.mpr hBig)]
    unfold sizeofBigChunk
    rw [ptrAdvance_of_lt hLt]
    omega
  rw [hRegion]
  constructor
  · intro hEnd _
    refine ⟨by omega, fun fuel' p' hPlace' => ?_⟩
    rw [place_unique hPlace' hPlace]
    cases p with
    | hole c => trivial
    | _ => exact hEnd
  · intro hEnds
    obtain ⟨hWrap, hAll⟩ := hEnds hBig
    have hHere := hAll fuel p hPlace
    cases p with
    | hole c =>
      have := (h.hole hPlace).2
      have := (reqSize_bounds hWrap).1
      simp only [chunkAddress]
      omega
    | _ => exact hHere

end Inside

/-- The calls made in the space `d` that pick a safe chunk and find room below `limit`. -/
def RoomyCall (d : ι) (limit : Nat) (s : HeapSystem ι) (x : ι × Call) : Prop :=
  x.1 = d ∧ s.Placeable x.1 x.2 ∧ s.Room limit x.1 x.2

theorem stop_add_le (hInit : memoryManagerInitialize start stop max isKernel rw = some mm)
    (hStop : stop < 4294967296) : stop + 8 ≤ 4294967296 := by
  unfold memoryManagerInitialize at hInit
  split at hInit
  · rename_i hAligned
    omega
  · cases hInit

/-- In every run whose requests find room in the heap, the next one is answered from inside the
region if it finds room as well, and only then unless the place behind the last chunk wraps. -/
theorem inRegion_iff_room {d : ι} {mem : ι → Memory} {xs : List (ι × Call)} {s : HeapSystem ι}
    (hInit : memoryManagerInitialize start stop max isKernel rw = some mm)
    (hRegion : start + 6813 ≤ stop) (hStop : stop < 4294967296) (hHead : HeadClear start (mem d))
    (hRun : Run (Guarded Step (RoomyCall d stop)) (boot mm mem) xs s) {n fuel : Nat}
    {r : Nat × MemoryManager × Memory} (hMalloc : malloc fuel s.mm (s.mem d) n = some r) :
    (s.Room stop d (.malloc n) → InRegion start stop n r.1) ∧
      (s.LastFits d → InRegion start stop n r.1 → s.Room stop d (.malloc n)) := by
  obtain ⟨hGlobals, hNone, -⟩ := globals_of_initialize hInit hRegion hStop
  have hLimit := stop_add_le hInit hStop
  have hInside : Inside start stop d s := by
    apply hRun.invariant (Inside.boot hGlobals hNone hHead hRegion)
    rintro u ⟨e, c⟩ u' hHere ⟨⟨rfl, hSafe, hRoom⟩, hStep⟩
    exact hHere.step hLimit hStep hSafe (hHere.endsBelow hLimit hRoom)
  rw [hInside.room_iff hLimit]
  unfold malloc at hMalloc
  split at hMalloc
  · rename_i hZero
    cases hMalloc
    exact ⟨fun _ => Or.inl rfl, fun _ _ hBig => by omega⟩
  · split at hMalloc
    · rename_i hSmall
      cases hMalloc
      exact ⟨fun _ => mallocFastbin_inRegion hInside.sound.globals hRegion hSmall,
        fun _ _ hBig => absurd hSmall (Nat.not_le.mpr hBig)⟩
    · rename_i hLarge
      have hBig : fastbinThreshold < n := Nat.not_le.mp hLarge
      obtain ⟨r', hMallocBig, rfl⟩ := Option.map_eq_some_iff.mp hMalloc
      obtain ⟨p, hPlace, hPtr, -, -⟩ := mallocBig_eq_some hMallocBig
      simp only [hPtr, putChunk_fst]
      constructor
      · intro hEnds
        refine (hInside.inRegion_iff hLimit hBig hPlace ?_).mpr hEnds
        refine hInside.address_lt hLimit hPlace fun last hAppend => ?_
        have hHere := (hEnds hBig).2 fuel p hPlace
        rw [hAppend] at hHere
        simp only [chunkAddress] at hHere
        omega
      · intro hLast hAnswer
        refine (hInside.inRegion_iff hLimit hBig hPlace ?_).mp hAnswer
        refine hInside.address_lt hLimit hPlace fun last hAppend => ?_
        rw [hAppend] at hPlace
        obtain ⟨hWalk, hEnd⟩ := hInside.last_of_append hPlace
        exact hLast last hWalk hEnd

/-! ## Runs on concrete frames -/

/-- The calls made in the space `d` that pick a safe chunk and place no new one past `limit`. -/
def EndingCall (d : ι) (limit : Nat) (s : HeapSystem ι) (x : ι × Call) : Prop :=
  x.1 = d ∧ s.Placeable x.1 x.2 ∧ s.EndsBelow limit x.1 x.2

/-- Decides `EndingCall`. -/
def endingNow (limit : Nat) (s : HeapSystem Unit) (x : Unit × Call) : Bool :=
  s.placeableNow 8 x && s.placementIs 8 (fun m size p => match p with
    | .hole _ => true
    | p => chunkAddress m p + 13 + size ≤ limit) x.1 x.2

theorem endingCall_of_endingNow {limit : Nat} {s : HeapSystem Unit} {x : Unit × Call}
    (h : endingNow limit s x = true) : EndingCall () limit s x := by
  obtain ⟨⟨⟩, c⟩ := x
  obtain ⟨hSafe, hPlace⟩ := Bool.and_eq_true_iff.mp h
  refine ⟨rfl, placeable_of_placeableNow hSafe, ?_⟩
  cases c with
  | malloc size =>
    intro hBig
    obtain ⟨hWrap, hAll⟩ := placement_of_is hPlace hBig
    refine ⟨hWrap, fun fuel p hp => ?_⟩
    have hHere := hAll fuel p hp
    cases p with
    | first c => exact of_decide_eq_true hHere
    | hole c => trivial
    | append last => exact of_decide_eq_true hHere
  | free ptr => trivial
  | store a v => trivial

/-- Requests whose new chunks end below the limit find room. -/
theorem roomyRun {limit : Nat} {d : ι} {s t : HeapSystem ι} {xs : List (ι × Call)}
    (hLimit : limit + 8 ≤ 4294967296) (h : Inside start limit d s)
    (hRun : Run (Guarded Step (EndingCall d limit)) s xs t) :
    Run (Guarded Step (RoomyCall d limit)) s xs t ∧ Inside start limit d t := by
  induction hRun with
  | refl => exact ⟨.refl, h⟩
  | @tail xs x u u' prior last ih =>
    obtain ⟨hPrior, hInside⟩ := ih
    obtain ⟨e, c⟩ := x
    obtain ⟨⟨rfl, hSafe, hEnds⟩, hStep⟩ := last
    refine ⟨.tail hPrior ⟨⟨rfl, hSafe, ?_⟩, hStep⟩, hInside.step hLimit hStep hSafe hEnds⟩
    cases c with
    | malloc n => exact (hInside.room_iff hLimit n).mpr hEnds
    | free ptr => trivial
    | store a v => trivial

/-- The last request takes the second chunk over. -/
theorem inRegion_iff_room_kernel : ∃ mm t r,
    Run (Guarded Step (RoomyCall () 0xC1000000)) (boot mm fun _ => fun _ => 0)
      ([.malloc 100, .malloc 200, .malloc 300, .free 0xC0001B15].map fun c => ((), c)) t ∧
      malloc 8 t.mm (t.mem ()) 90 = some r ∧ r.1 = 0xC0001B15 ∧
      InRegion 0xC0000000 0xC1000000 90 r.1 := by
  have hEnd : (kernelHeap (endingNow 0xC1000000)
      [.malloc 100, .malloc 200, .malloc 300, .free 0xC0001B15]).any (fun t =>
        endingNow 0xC1000000 t ((), .malloc 90) &&
          (malloc 8 t.mm (t.mem ()) 90).any fun r => r.1 = 0xC0001B15) = true := by
    decide +kernel
  obtain ⟨t, ht, hNow⟩ := (Option.any_eq_true _ _).mp hEnd
  obtain ⟨hEnding, hAnswer⟩ := Bool.and_eq_true_iff.mp hNow
  obtain ⟨r, hMalloc, hPtr⟩ := (Option.any_eq_true _ _).mp hAnswer
  obtain ⟨mm, hInit, hRun⟩ := run_of_kernelHeap (fun _ _ => endingCall_of_endingNow) ht
  have hHead : HeadClear 0xC0000000 (fun _ => 0) := ⟨by decide +kernel, by decide +kernel⟩
  obtain ⟨hGlobals, hNone, -⟩ := globals_of_initialize hInit (by decide) (by decide)
  obtain ⟨hRoomy, hInside⟩ := roomyRun (stop_add_le hInit (by decide))
    (Inside.boot hGlobals hNone hHead (by decide)) hRun
  refine ⟨mm, t, r, hRoomy, hMalloc, of_decide_eq_true hPtr, ?_⟩
  apply (inRegion_iff_room hInit (by decide) (by decide) hHead hRoomy hMalloc).1
  have hEnds := (endingCall_of_endingNow hEnding).2.2
  exact (hInside.room_iff (stop_add_le hInit (by decide)) 90).mpr hEnds

/-- Two requests of 16 MiB less 64 KiB, of which the region can hold one. -/
theorem not_inRegion_of_exhausted : ∃ mm t r,
    memoryManagerInitialize 0xC0000000 0xC1000000 0xCFFFF000 true true = some mm ∧
    Run Step (boot mm fun _ : Unit => fun _ => 0) [((), .malloc 0xFF0000)] t ∧
    malloc 8 t.mm (t.mem ()) 0xFF0000 = some r ∧
    ¬ InRegion 0xC0000000 0xC1000000 0xFF0000 r.1 := by
  have hEnd : (kernelHeap (fun _ _ => true) [.malloc 0xFF0000]).any (fun t =>
      (malloc 8 t.mm (t.mem ()) 0xFF0000).any fun r => r.1 = 0xC0FF1AAD) = true := by
    decide +kernel
  obtain ⟨t, ht, hAnswer⟩ := (Option.any_eq_true _ _).mp hEnd
  obtain ⟨r, hMalloc, hPtr⟩ := (Option.any_eq_true _ _).mp hAnswer
  have hAny : ∀ (s : HeapSystem Unit) (x : Unit × Call), true = true → True := fun _ _ _ => trivial
  obtain ⟨mm, hInit, hRun⟩ := run_of_kernelHeap hAny ht
  refine ⟨mm, t, r, hInit, hRun.of_guarded, hMalloc, fun hInside => ?_⟩
  rw [of_decide_eq_true hPtr] at hInside
  revert hInside
  unfold InRegion
  decide

end Juos.Kmm
