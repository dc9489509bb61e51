import Juos.Kmm.Sound

/-!
# Safety of the heap in one address space

While one page directory stays loaded, the heap is safe in every run whose calls are `Placeable`.
Nothing more is needed of the history: holes may be reused, and chunks may be merged in both
directions. `Placeable` cannot be dropped. Freeing the chunk behind a free first chunk cuts the
back link only, so the first chunk still leads to it when the heap looks empty, and the next
`malloc` takes the first chunk over without looking at that link.
-/

namespace Juos.Kmm

open Machine HeapSystem

variable {ι : Type} [DecidableEq ι] {start stop max : Nat} {isKernel rw : Bool}
  {mm : MemoryManager}

/-- The first header has null links, as `MemoryManager::Initialize` means to leave it. -/
def HeadClear (start : Nat) (m : Memory) : Prop :=
  prev m (bigStart start) = 0 ∧ next m (bigStart start) = 0

theorem globals_of_initialize
    (hInit : memoryManagerInitialize start stop max isKernel rw = some mm)
    (hRegion : start + 6813 ≤ stop) (hStop : stop < 4294967296) :
    Globals start mm ∧ mm.mappedHeap.allocatedChunks = 0 ∧ mm.mappedHeap.endAddress = stop := by
  unfold memoryManagerInitialize at hInit
  split at hInit
  · cases hInit
    have hEnd : ptrAdvance start ((sizeofFastChunk + fastbinThreshold) * fastbinMaxSize) =
        start + 6800 := ptrAdvance_of_lt (n := 6800) (by omega)
    have hBig : ptrAdvance start (ptrSub (start + 6800) start) = start + 6800 := by
      rw [ptrSub_of_le (by omega) (by omega), Nat.add_sub_cancel_left]
      exact ptrAdvance_of_lt (by omega)
    refine ⟨⟨rfl, ?_, rfl, rfl, ?_⟩, rfl, rfl⟩
    · exact (congrArg (fun e => ptrAdvance start (ptrSub e start)) hEnd).trans hBig
    · unfold bigStart
      omega
  · cases hInit

theorem Space.single {m : Memory} (hHead : HeadClear start m)
    (hFits : bigStart start + 13 ≤ 4294967296) : Space m (bigStart start) [] [bigStart start] where
  chunks :=
    { chain := .singleton _
      last := by simpa using hHead.2
      first := by simpa using hHead.1
      pos := by simp [bigStart]
      fits := by simpa using hFits }
  head_eq := rfl
  owner b hb := by cases hb
  small b hb := by cases hb
  distinct := List.nodup_nil

theorem Sound.boot {D : Set ι} {mem : ι → Memory} (hGlobals : Globals start mm)
    (hNone : mm.mappedHeap.allocatedChunks = 0) (hHead : ∀ d ∈ D, HeadClear start (mem d)) :
    Sound start D (HeapSystem.boot mm mem) where
  globals := hGlobals
  space d hd := ⟨_, Space.single (hHead d hd) hGlobals.fits⟩
  within e he := by cases he
  slot e he := by cases he
  slots_distinct := .nil
  count := hNone
  bounded := by
    have : mm.mappedHeap.allocatedChunks = 0 := hNone
    exact this.trans_lt (by decide)

/-- With one space in use, the chunks that fit into it bound the number of live blocks. -/
theorem Sound.count_lt {d : ι} {s : HeapSystem ι} (h : Sound start {d} s) :
    s.mm.mappedHeap.allocatedChunks + 1 < 4294967296 := by
  obtain ⟨cs, hSpace⟩ := h.space d rfl
  have hCount := hSpace.count_big_le
  have hAll := countP_blocksIn (fun b => bigStart start < b.ptr) fun e he => h.within e he
  rw [h.count, hAll]
  unfold liveIn at hCount
  omega

/-- The calls made in the space `d`, none of which passes `limit`. -/
def In (d : ι) (limit : Nat) (s : HeapSystem ι) (x : ι × Call) : Prop :=
  x.1 = d ∧ s.Fits limit x.1 x.2

/-- Every run of placeable calls in one address space is safe. -/
theorem heapSafe_of_placeable {d : ι} {mem : ι → Memory} {xs : List (ι × Call)}
    {t : HeapSystem ι} (hInit : memoryManagerInitialize start stop max isKernel rw = some mm)
    (hRegion : start + 6813 ≤ stop) (hStop : stop < 4294967296)
    (hHead : HeadClear start (mem d))
    (hRun : Run (Guarded Step fun s x => In d stop s x ∧ s.Placeable x.1 x.2)
      (boot mm mem) xs t) : t.Safe d := by
  obtain ⟨hGlobals, hNone, -⟩ := globals_of_initialize hInit hRegion hStop
  have hBoot : Sound start {d} (boot mm mem) := .boot hGlobals hNone (by rintro e rfl; exact hHead)
  have hSound : Sound start {d} t := by
    apply hRun.invariant hBoot
    rintro s ⟨e, c⟩ s' hSound ⟨⟨⟨rfl, hFits⟩, hSafe⟩, hStep⟩
    exact hSound.step rfl hStep (fits_mono hFits hStop.le) hSafe hSound.count_lt
  exact hSound.safe rfl

/-! ## Runs on concrete frames -/

/-- The kernel's heap over frames that hold zeros, after the calls `cs`. -/
def kernelHeap (ok : HeapSystem Unit → Unit × Call → Bool) (cs : List Call) :
    Option (HeapSystem Unit) :=
  (memoryManagerInitialize 0xC0000000 0xC1000000 0xCFFFF000 true true).bind fun mm =>
    exec 8 ok (boot mm fun _ _ => 0) (cs.map fun c => ((), c))

theorem run_of_kernelHeap {ok : HeapSystem Unit → Unit × Call → Bool} {cs : List Call}
    {t : HeapSystem Unit} {cond : HeapSystem Unit → Unit × Call → Prop}
    (hOk : ∀ s x, ok s x = true → cond s x) (h : kernelHeap ok cs = some t) :
    ∃ mm, memoryManagerInitialize 0xC0000000 0xC1000000 0xCFFFF000 true true = some mm ∧
      Run (Guarded Step cond) (boot mm fun _ _ => 0) (cs.map fun c => ((), c)) t := by
  obtain ⟨mm, hInit, hExec⟩ := Option.bind_eq_some_iff.mp h
  exact ⟨mm, hInit, run_of_exec hOk hExec⟩

theorem heapSafe_of_placeable_kernel : ∃ t, kernelHeap
    (fun s x => s.fitsNow 8 0xC1000000 x && s.placeableNow 8 x)
      [.malloc 100, .malloc 20, .malloc 200, .free 0xC0001A9D, .malloc 80] = some t ∧
      t.Safe () := by
  have hSome : (kernelHeap (fun s x => s.fitsNow 8 0xC1000000 x && s.placeableNow 8 x)
      [.malloc 100, .malloc 20, .malloc 200, .free 0xC0001A9D, .malloc 80]).isSome := by
    decide +kernel
  have hOk : ∀ (s : HeapSystem Unit) (x : Unit × Call),
      (s.fitsNow 8 0xC1000000 x && s.placeableNow 8 x) = true →
        In () 0xC1000000 s x ∧ s.Placeable x.1 x.2 := by
    intro s x hOk
    obtain ⟨hFits, hSafe⟩ := Bool.and_eq_true_iff.mp hOk
    exact ⟨⟨rfl, fits_of_fitsNow hFits⟩, placeable_of_placeableNow hSafe⟩
  obtain ⟨t, ht⟩ := Option.isSome_iff_exists.mp hSome
  obtain ⟨mm, hInit, hRun⟩ := run_of_kernelHeap hOk ht
  exact ⟨t, ht, heapSafe_of_placeable hInit (by decide) (by decide)
    ⟨by decide +kernel, by decide +kernel⟩ hRun⟩

/-- After the two chunks are freed the first one still leads to the second, and the last `malloc`
hands out a block that covers the header there. -/
theorem not_heapSafe_of_stale_successor : ∃ mm t,
    memoryManagerInitialize 0xC0000000 0xC1000000 0xCFFFF000 true true = some mm ∧
    HeadClear 0xC0000000 (fun _ => 0) ∧
    Run (Guarded Step (In () 0xC1000000)) (boot mm fun _ _ => 0)
      [((), .malloc 100), ((), .malloc 100), ((), .free 0xC0001A9D), ((), .free 0xC0001B15),
        ((), .malloc 1000)] t ∧
    ¬ t.Safe () := by
  have hEnd : (kernelHeap (fitsNow 8 0xC1000000)
      [.malloc 100, .malloc 100, .free 0xC0001A9D, .free 0xC0001B15, .malloc 1000]).map
        (fun t => (t.liveIn (), next (t.mem ()) 0xC0001A90, t.mm.mappedHeap.bigChunks)) =
      some ([⟨0xC0001A9D, 1000⟩], 0xC0001B08, 0xC0001A90) := by
    decide +kernel
  obtain ⟨t, ht, hEq⟩ := Option.map_eq_some_iff.mp hEnd
  simp only [Prod.mk.injEq] at hEq
  obtain ⟨hLive, hNext, hHead⟩ := hEq
  have hOk : ∀ s x, fitsNow 8 0xC1000000 s x = true → In () 0xC1000000 s x :=
    fun s x hFits => ⟨rfl, fits_of_fitsNow hFits⟩
  obtain ⟨mm, hInit, hRun⟩ := run_of_kernelHeap hOk ht
  refine ⟨mm, t, hInit, ⟨by decide +kernel, by decide +kernel⟩, hRun, fun hSafe => ?_⟩
  have hPath : Relation.ReflTransGen (Forward (next (t.mem ()))) 0xC0001A90 0xC0001B08 :=
    .single ⟨hNext, by decide⟩
  have hApart := hSafe.apart ⟨0xC0001A9D, 1000⟩ (by rw [hLive]; exact List.mem_cons_self)
    0xC0001B08 (hHead ▸ hPath)
  simp at hApart

end Juos.Kmm
