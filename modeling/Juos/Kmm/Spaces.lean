import Juos.Kmm.Safety

/-!
# One allocator, many address spaces

Calls made while different page directories are loaded interleave freely. What one space holds
reaches the others only through the globals: the slots of the fast bin, which are handed out once
for all spaces, and `allocated_chunks`. A space whose first header was never given a size is in
danger as soon as another space holds a chunk, because the counter then sends its first `malloc`
past the branch that would write that header: the chunk is appended to itself and the walk over
the list no longer ends.

A `TracedSystem` records beside the heap which headers were written in which space.
-/

namespace Juos.Kmm

open Machine HeapSystem

variable {ι : Type} [DecidableEq ι]

/-- The call is made in a space whose frames held null links in the first header, it meets the
conditions of one space, and the counter of chunks does not wrap. -/
def SoundCall (start : Nat) (mem : ι → Memory) (s : HeapSystem ι) (x : ι × Call) : Prop :=
  HeadClear start (mem x.1) ∧ s.Fits 4294967296 x.1 x.2 ∧ s.Placeable x.1 x.2 ∧
    s.mm.mappedHeap.allocatedChunks + 1 < 4294967296

/-! ## Who wrote a header -/

/-- The spaces, with the headers that calls have written in each. -/
structure TracedSystem (ι : Type) where
  heap : HeapSystem ι
  written : ι → List Nat

/-- The header of the chunk that the call hands out. -/
def headersWritten (fuel : Nat) (s : HeapSystem ι) (d : ι) : Call → List Nat
  | .malloc n =>
    if n ≤ fastbinThreshold then []
    else ((place fuel s.mm.mappedHeap (s.mem d) (reqSize n)).map fun p =>
      (putChunk (s.mem d) (reqSize n) p).1).toList
  | _ => []

namespace TracedSystem

def boot (mm : MemoryManager) (mem : ι → Memory) : TracedSystem ι :=
  ⟨HeapSystem.boot mm mem, fun _ => []⟩

def call (fuel : Nat) (s : TracedSystem ι) (d : ι) (c : Call) : Option (TracedSystem ι) :=
  (s.heap.call fuel d c).map fun heap =>
    ⟨heap, Function.update s.written d (headersWritten fuel s.heap d c ++ s.written d)⟩

def Step (s : TracedSystem ι) (x : ι × Call) (t : TracedSystem ι) : Prop :=
  s.heap.Legal x.1 x.2 ∧ ∃ fuel, s.call fuel x.1 x.2 = some t

/-- The call walks along the list. -/
def Walks (s : TracedSystem ι) : Call → Prop
  | .malloc n => fastbinThreshold < n ∧ s.heap.mm.mappedHeap.allocatedChunks ≠ 0
  | _ => False

/-- The walk of the call sees only headers that were written in the loaded space. -/
def OwnWalk (s : TracedSystem ι) (x : ι × Call) : Prop :=
  s.Walks x.2 → ∀ c, s.heap.OnWalk x.1 c → c ∈ s.written x.1

/-- A call that walks is made in a space whose first header was written there. -/
def OwnsFirst (start : Nat) (s : TracedSystem ι) (x : ι × Call) : Prop :=
  s.Walks x.2 → bigStart start ∈ s.written x.1

/-- Every header on the walk, the first one aside, was written in the space. -/
def Own (start : Nat) (s : TracedSystem ι) (d : ι) : Prop :=
  ∀ c, s.heap.OnWalk d c → c = bigStart start ∨ c ∈ s.written d

variable {start : Nat} {D : Set ι} {s t : TracedSystem ι} {x : ι × Call}

theorem Step.heap (h : Step s x t) : HeapSystem.Step s.heap x t.heap := by
  obtain ⟨hLegal, fuel, hRun⟩ := h
  obtain ⟨heap, hCall, rfl⟩ := Option.map_eq_some_iff.mp hRun
  exact ⟨hLegal, fuel, hCall⟩

theorem mem_call_of_ne {fuel : Nat} {s t : HeapSystem ι} {d d' : ι} {c : Call}
    (hRun : s.call fuel d c = some t) (hne : d' ≠ d) : t.mem d' = s.mem d' := by
  cases c with
  | malloc n =>
    obtain ⟨r, -, rfl⟩ := Option.map_eq_some_iff.mp hRun
    exact Function.update_of_ne hne ..
  | free ptr =>
    cases hRun
    exact Function.update_of_ne hne ..
  | store a v =>
    cases hRun
    exact Function.update_of_ne hne ..

/-- The header at the place of a big request is recorded. -/
theorem mem_headersWritten {fuel fuel' n : Nat} {s t : HeapSystem ι} {d : ι} {p : Placement}
    (h : Sound start D s) (hd : d ∈ D) (hBig : fastbinThreshold < n)
    (hFits : s.Fits 4294967296 d (.malloc n)) (hSafe : s.Placeable d (.malloc n))
    (hRun : s.call fuel d (.malloc n) = some t)
    (hPlace : place fuel' s.mm.mappedHeap (s.mem d) (reqSize n) = some p) :
    chunkAddress (s.mem d) p ∈ headersWritten fuel s d (.malloc n) := by
  obtain ⟨cs, hSpace⟩ := h.space d hd
  obtain ⟨hChunk, -⟩ := h.put_big hSpace hBig hFits hSafe hPlace
  obtain ⟨r, hMalloc, -⟩ := Option.map_eq_some_iff.mp hRun
  unfold malloc at hMalloc
  have hn : n ≠ 0 := by omega
  rw [if_neg hn, if_neg (Nat.not_le.mpr hBig)] at hMalloc
  obtain ⟨r', hMallocBig, -⟩ := Option.map_eq_some_iff.mp hMalloc
  obtain ⟨p', hPlace', -⟩ := mallocBig_eq_some hMallocBig
  obtain rfl := place_unique hPlace hPlace'
  simp [headersWritten, Nat.not_le.mpr hBig, hPlace', hChunk]

/-- A call writes the headers that it adds to the walk in the loaded space. -/
theorem Own.step {d : ι} (h : Sound start D s.heap) (hOwn : ∀ d ∈ D, s.Own start d)
    (hStep : Step s x t) (hx : x.1 ∈ D) (hFits : s.heap.Fits 4294967296 x.1 x.2)
    (hSafe : s.heap.Placeable x.1 x.2) (hGlobals : Globals start t.heap.mm) (hd : d ∈ D) :
    t.Own start d := by
  obtain ⟨e, c⟩ := x
  have hHeap := hStep.heap
  obtain ⟨-, fuel, hRun⟩ := hStep
  obtain ⟨heap, hCall, rfl⟩ := Option.map_eq_some_iff.mp hRun
  intro a ha
  rw [OnWalk, hGlobals.bigChunks] at ha
  dsimp only at ha ⊢
  by_cases hde : d = e
  · subst hde
    rw [Function.update_self]
    obtain ⟨cs, hSpace⟩ := h.space d hd
    obtain ⟨cs', hChunks, hHead, hSub⟩ := h.headers_step hHeap hFits hSafe hSpace
    rcases hSub a (hChunks.mem_of_path (List.mem_of_head? hHead) ha) with
      hOld | ⟨n, fuel', p, rfl, hBig, hPlace, rfl⟩
    · exact (hOwn d hd a ((h.onWalk_iff hSpace).mpr hOld)).imp_right
        (List.mem_append_right _)
    · exact Or.inr (List.mem_append_left _
        (mem_headersWritten h hd hBig hFits hSafe hCall hPlace))
  · rw [Function.update_of_ne hde]
    rw [mem_call_of_ne hCall hde] at ha
    apply hOwn d hd a
    rwa [OnWalk, h.globals.bigChunks]

end TracedSystem

namespace TracedSystem

variable {start stop max : Nat} {isKernel rw : Bool} {mm : MemoryManager} {mem : ι → Memory}
  {xs : List (ι × Call)} {t : TracedSystem ι}

/-- The heap of a run is sound, and the headers on the walks were written where they are. -/
theorem own_of_run (hInit : memoryManagerInitialize start stop max isKernel rw = some mm)
    (hRegion : start + 6813 ≤ stop) (hStop : stop < 4294967296)
    (hRun : Run (Guarded Step fun s x => SoundCall start mem s.heap x) (boot mm mem) xs t) :
    Sound start { d | HeadClear start (mem d) } t.heap ∧
      ∀ d, HeadClear start (mem d) → t.Own start d := by
  obtain ⟨hGlobals, hNone, -⟩ := globals_of_initialize hInit hRegion hStop
  have hBoot : Sound start { d | HeadClear start (mem d) } (HeapSystem.boot mm mem) :=
    .boot hGlobals hNone fun d hd => hd
  refine hRun.invariant (I := fun t : TracedSystem ι =>
    Sound start { d | HeadClear start (mem d) } t.heap ∧
      ∀ d, HeadClear start (mem d) → t.Own start d) ⟨hBoot, fun d hd c hc => ?_⟩ ?_
  · have hMem := (hBoot.onWalk_iff (Space.single hd hGlobals.fits)).mp hc
    exact Or.inl (List.mem_singleton.mp hMem)
  · rintro s ⟨d, c⟩ s' ⟨hSound, hOwn⟩ ⟨⟨hHead, hFits, hSafe, hCount⟩, hStep⟩
    have hSound' := hSound.step hHead hStep.heap hFits hSafe hCount
    exact ⟨hSound', fun e he => Own.step hSound hOwn hStep hHead hFits hSafe hSound'.globals he⟩

end TracedSystem

/-- Interleaved calls keep every space safe, and each further call returns. Its walk sees only
headers that were written in its space exactly if the first header was written there. -/
theorem spaces_safe_and_return {start stop max : Nat} {isKernel rw : Bool} {mm : MemoryManager}
    {mem : ι → Memory} {xs : List (ι × Call)} {t : TracedSystem ι}
    (hInit : memoryManagerInitialize start stop max isKernel rw = some mm)
    (hRegion : start + 6813 ≤ stop) (hStop : stop < 4294967296)
    (hRun : Run (Guarded TracedSystem.Step fun s x => SoundCall start mem s.heap x)
      (.boot mm mem) xs t) :
    ∀ d, HeadClear start (mem d) → t.heap.Safe d ∧
      ∀ c, (∃ fuel u, t.call fuel d c = some u) ∧
        (t.OwnWalk (d, c) ↔ t.OwnsFirst start (d, c)) := by
  obtain ⟨hSound, hOwn⟩ := TracedSystem.own_of_run hInit hRegion hStop hRun
  refine fun d hd => ⟨hSound.safe hd, fun c => ⟨?_, ?_⟩⟩
  · obtain ⟨fuel, heap, hCall⟩ := hSound.returns hd c
    exact ⟨fuel, _, Option.map_eq_some_iff.mpr ⟨heap, hCall, rfl⟩⟩
  · constructor
    · intro hWalk hWalks
      apply hWalk hWalks
      rw [OnWalk, hSound.globals.bigChunks]
    · intro hFirst hWalks a ha
      rcases hOwn d hd a ha with rfl | hWritten
      · exact hFirst hWalks
      · exact hWritten

/-! ## Two spaces over frames that hold zeros -/

/-- The two spaces are the kernel's, `true`, and one process's, `false`. -/
def twoHeaps (ok : HeapSystem Bool → Bool × Call → Bool) (xs : List (Bool × Call)) :
    Option (HeapSystem Bool) :=
  (memoryManagerInitialize 0xC0000000 0xC1000000 0xCFFFF000 true true).bind fun mm =>
    exec 8 ok (boot mm fun _ _ => 0) xs

theorem run_of_twoHeaps {ok : HeapSystem Bool → Bool × Call → Bool} {xs : List (Bool × Call)}
    {t : HeapSystem Bool} {cond : HeapSystem Bool → Bool × Call → Prop}
    (hOk : ∀ s x, ok s x = true → cond s x) (h : twoHeaps ok xs = some t) :
    ∃ mm, memoryManagerInitialize 0xC0000000 0xC1000000 0xCFFFF000 true true = some mm ∧
      Run (Guarded Step cond) (boot mm fun _ _ => 0) xs t := by
  obtain ⟨mm, hInit, hExec⟩ := Option.bind_eq_some_iff.mp h
  exact ⟨mm, hInit, run_of_exec hOk hExec⟩

def soundNow (s : HeapSystem Bool) (x : Bool × Call) : Bool :=
  s.fitsNow 8 4294967296 x && s.placeableNow 8 x &&
    s.mm.mappedHeap.allocatedChunks + 1 < 4294967296

/-- Make a legal call that passes `soundNow`. -/
def tracedCall (s : TracedSystem Bool) (x : Bool × Call) : Option (TracedSystem Bool) :=
  if s.heap.Legal x.1 x.2 ∧ soundNow s.heap x then s.call 8 x.1 x.2 else none

theorem step_of_tracedCall {s t : TracedSystem Bool} {x : Bool × Call}
    (h : tracedCall s x = some t) : Guarded TracedSystem.Step (fun s x =>
      SoundCall 0xC0000000 (fun _ _ => 0) s.heap x) s x t := by
  rw [tracedCall] at h
  split at h
  · rename_i hNow
    obtain ⟨hPlace, hCount⟩ := Bool.and_eq_true_iff.mp hNow.2
    obtain ⟨hFits, hSafe⟩ := Bool.and_eq_true_iff.mp hPlace
    have hClear : HeadClear 0xC0000000 (fun _ => 0) := ⟨by decide +kernel, by decide +kernel⟩
    exact ⟨⟨hClear, fits_of_fitsNow hFits, placeable_of_placeableNow hSafe,
      of_decide_eq_true hCount⟩, hNow.1, 8, h⟩
  · cases h

/-- The last walk, in the kernel's space, sees the kernel's headers. -/
theorem spaces_safe_and_return_two : ∃ mm t,
    memoryManagerInitialize 0xC0000000 0xC1000000 0xCFFFF000 true true = some mm ∧
    [(true, .malloc 20), (false, .malloc 30), (false, .malloc 100), (false, .free 0xC0001A9D),
      (true, .malloc 200)].foldlM tracedCall (.boot mm fun _ _ => 0) = some t ∧
    (∀ d, t.heap.Safe d) ∧ ∃ u, t.call 8 true (.malloc 90) = some u ∧
      t.OwnWalk (true, .malloc 90) := by
  have hEnd : (memoryManagerInitialize 0xC0000000 0xC1000000 0xCFFFF000 true true).any (fun mm =>
      ([(true, .malloc 20), (false, .malloc 30), (false, .malloc 100), (false, .free 0xC0001A9D),
        (true, .malloc 200)].foldlM tracedCall (.boot mm fun _ _ => 0)).any fun t =>
          (t.call 8 true (.malloc 90)).isSome && bigStart 0xC0000000 ∈ t.written true) = true := by
    decide +kernel
  obtain ⟨mm, hInit, hRest⟩ := (Option.any_eq_true _ _).mp hEnd
  obtain ⟨t, ht, hLast⟩ := (Option.any_eq_true _ _).mp hRest
  obtain ⟨hCall, hFirst⟩ := Bool.and_eq_true_iff.mp hLast
  obtain ⟨u, hu⟩ := Option.isSome_iff_exists.mp hCall
  have hClear : HeadClear 0xC0000000 (fun _ => 0) := ⟨by decide +kernel, by decide +kernel⟩
  have hRun := Run.of_foldlM (fun _ _ _ => step_of_tracedCall) ht
  have hAll := spaces_safe_and_return hInit (by decide) (by decide) hRun
  exact ⟨mm, t, hInit, ht, fun d => (hAll d hClear).1, u, hu,
    ((hAll true hClear).2 (.malloc 90)).2.mpr fun _ => of_decide_eq_true hFirst⟩

/-- A used chunk that leads to itself holds the search forever. -/
theorem searchHole_self {m : Memory} {req c : Nat} (hNext : next m c = c) (hne : c ≠ 0)
    (hUsed : used m c = true) (fuel : Nat) : searchHole m req fuel c = none := by
  induction fuel with
  | zero => rfl
  | succ fuel ih =>
    rw [searchHole, hNext, if_neg hne, if_neg (by simp [hUsed])]
    exact ih

/-- The kernel holds one chunk, a process asks for its first, and its next request never
returns. -/
theorem not_returns_in_second_space : ∃ mm t,
    memoryManagerInitialize 0xC0000000 0xC1000000 0xCFFFF000 true true = some mm ∧
    Run Step (boot mm fun _ _ => 0) [(true, .malloc 100), (false, .malloc 100)] t ∧
    ∀ fuel, t.call fuel false (.malloc 100) = none := by
  have hEnd : (twoHeaps (fun _ _ => true) [(true, .malloc 100), (false, .malloc 100)]).map
      (fun t => (t.mm.mappedHeap.bigChunks, t.mm.mappedHeap.allocatedChunks,
        next (t.mem false) 0xC0001A90, used (t.mem false) 0xC0001A90)) =
      some (0xC0001A90, 2, 0xC0001A90, true) := by
    decide +kernel
  obtain ⟨t, ht, hEq⟩ := Option.map_eq_some_iff.mp hEnd
  simp only [Prod.mk.injEq] at hEq
  obtain ⟨hHead, hCount, hNext, hUsed⟩ := hEq
  have hAny : ∀ (s : HeapSystem Bool) (x : Bool × Call), true = true → True := fun _ _ _ => trivial
  obtain ⟨mm, hInit, hRun⟩ := run_of_twoHeaps hAny ht
  refine ⟨mm, t, hInit, hRun.of_guarded, fun fuel => ?_⟩
  have hSearch : searchHole (t.mem false) (reqSize 100) fuel 0xC0001A90 = none :=
    searchHole_self hNext (by decide) hUsed fuel
  simp [HeapSystem.call, malloc, mallocBig, place, fastbinThreshold, hHead, hCount, hSearch]

end Juos.Kmm
