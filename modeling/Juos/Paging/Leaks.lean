import Juos.Paging.Exclusive

/-!
# Frames that are taken are held

`NoLeak` says that every frame that is taken is held by a present entry of a table in use. Mapping
a page drops the frame that its entry held before, so a run keeps this as long as no call maps a
page that its directory has already; `leak_of_present` is what happens otherwise.

The proof needs to know that a new table is not placed over one in use. Each call to the mapping
loop takes a frame for every table it creates, so the frames that are left bound how far the
primitive heap can still grow.
-/

namespace Juos.Paging

open Machine

variable {dirs : List Nat} {s t u : PagingState} {dir start stop top fuel p n idx : Nat}

/-! ## Frames held -/

def Held (dirs : List Nat) (s : PagingState) (f : Nat) : Prop :=
  ∃ a, InUse dirs s a ∧ ∃ k < 1024,
    (s.enteries a k).isPresent = true ∧ (s.enteries a k).frame = f

def NoLeak (dirs : List Nat) (s : PagingState) : Prop :=
  ∀ f, s.frameTable.isTaken f = true → Held dirs s f

theorem Held.mono {dirs' : List Nat} {f : Nat} (h : Held dirs s f)
    (hEnteries : t.enteries = s.enteries) (hUse : ∀ a, InUse dirs s a → InUse dirs' t a) :
    Held dirs' t f := by
  obtain ⟨a, ha, k, hk, hEntry⟩ := h
  refine ⟨a, hUse a ha, k, hk, ?_⟩
  rw [hEnteries]
  exact hEntry

/-- A frame is lost when the page that held it is mapped again. -/
theorem leak_of_present (h : ExclusiveInv dirs s) (hDir : dir ∈ dirs) (hp : p < 1048576)
    (hPresent : (lookup s dir p).isPresent = true)
    (hPage : mapPage standartAllocator dir (4096 * p) s = some t) :
    ¬ NoLeak dirs t := by
  intro hNoLeak
  have hDiv : 4096 * p / 4096 = p := by omega
  have hTable : (s.directories dir).tables (p / 1024) ≠ 0 := by
    intro hNull
    rw [lookup_of_null hNull] at hPresent
    cases hPresent
  have hUse : InUse dirs s ((s.directories dir).tables (p / 1024)) :=
    ⟨hTable, dir, hDir, p / 1024, by omega, rfl⟩
  rw [lookup_of_eq rfl hTable] at hPresent
  obtain ⟨hTaken, -⟩ := h.exclusive.taken _ _ hUse (by omega) hPresent
  obtain ⟨idx, hFind, hCases⟩ := mapPage_cases hPage
  rw [hDiv] at hCases
  obtain ⟨-, rfl⟩ := hCases.resolve_right fun hNull => hTable hNull.1
  obtain ⟨hIdx, hFree, -⟩ := firstFree_spec hFind
  -- the old frame of the entry, which nothing else holds
  obtain ⟨a, ha, k, hk, hHolds, hFrame⟩ := hNoLeak
    (s.enteries ((s.directories dir).tables (p / 1024)) (p % 1024)).frame (by
      rw [writePage_frameTable]
      unfold FrameTable.setAtIndex
      by_cases hEq : (s.enteries ((s.directories dir).tables (p / 1024)) (p % 1024)).frame = idx
      · rw [hEq]
        exact Function.update_self ..
      · exact (Function.update_of_ne hEq ..).trans hTaken)
  by_cases hLoc : a = (s.directories dir).tables (p / 1024) ∧ k = p % 1024
  · obtain ⟨rfl, rfl⟩ := hLoc
    have hNew := h.frames
    rw [writePage_enteries_self, Page.frame_mapTo _ (by omega)] at hFrame
    rw [← hFrame, hFree] at hTaken
    cases hTaken
  · rw [writePage_enteries_of_ne _ _ (by tauto)] at hHolds hFrame
    exact hLoc (h.exclusive.own _ _ _ _ ha hUse hk (by omega) hHolds hPresent hFrame)

/-! ## One iteration -/

theorem WellFormed.congr {owned : Nat → Nat → Prop} {d : Nat} (h : WellFormed owned s d)
    (hTables : (t.directories d).tables = (s.directories d).tables)
    (hOwned : ∀ a, owned s.primitiveHeap a → owned t.primitiveHeap a) : WellFormed owned t d := by
  constructor
  · rw [hTables]
    exact h.distinct
  · rw [hTables]
    exact fun i hi hne => hOwned _ (h.allocated i hi hne)

/-- The invariant of a run without leaks. -/
structure Accounted (dirs : List Nat) (s : PagingState) : Prop where
  held : NoLeak dirs s
  wf : ∀ d ∈ dirs, WellFormed BelowHeap s d
  room : HeapRoom s.primitiveHeap (freeCount s.frameTable.isTaken s.frameTable.length)
  frames : s.frameTable.length ≤ 1048576

/-- Writing an entry that holds no frame adds one frame and loses none. -/
theorem noLeak_writePage {loc : Nat × Nat} (h : NoLeak dirs s) (hIdx : idx < 1048576)
    (hUse : InUse dirs s loc.1) (hSlot : loc.2 < 1024)
    (hAbsent : (s.enteries loc.1 loc.2).isPresent = false) :
    NoLeak dirs (writePage loc idx s) := by
  intro f hTaken
  by_cases hf : f = idx
  · refine ⟨loc.1, hUse, loc.2, hSlot, ?_⟩
    rw [writePage_enteries_self]
    exact ⟨rfl, (Page.frame_mapTo _ hIdx).trans hf.symm⟩
  · obtain ⟨a, ha, k, hk, hPresent, hFrame⟩ :=
      h f ((Function.update_of_ne hf ..).symm.trans hTaken)
    refine ⟨a, ha, k, hk, ?_⟩
    rw [writePage_enteries_of_ne]
    · exact ⟨hPresent, hFrame⟩
    · by_contra hLoc
      obtain ⟨rfl, rfl⟩ := not_or.mp hLoc |>.imp not_not.mp not_not.mp
      rw [hAbsent] at hPresent
      cases hPresent

/-- A new table that is placed over no table in use. -/
theorem noLeak_newTable {i : Nat} {r : Allocation} (h : NoLeak dirs s)
    (hNull : (s.directories dir).tables i = 0) (hFresh : ¬ InUse dirs s r.ptr) :
    NoLeak dirs (newTable dir i r s) := by
  intro f hTaken
  obtain ⟨a, ⟨ha, d, hd, j, hj, hTable⟩, k, hk, hEntry⟩ := h f hTaken
  have har : a ≠ r.ptr := by
    rintro rfl
    exact hFresh ⟨ha, d, hd, j, hj, hTable⟩
  refine ⟨a, ⟨ha, d, hd, j, hj, ?_⟩, k, hk, ?_⟩
  · by_cases hdd : d = dir
    · subst hdd
      rw [newTable_tables_of_ne]
      · exact hTable
      · rintro rfl
        exact ha (hTable.symm.trans hNull)
    · rw [newTable_of_ne hdd]
      exact hTable
  · rw [newTable_enteries_of_ne har]
    exact hEntry

/-- One iteration on a page that the directory does not have. Later pages stay as they were, or
stay absent. -/
theorem accounted_mapPage (h : Accounted dirs s) (hDir : dir ∈ dirs) (hTop : top < 4294967296)
    (hAbsent : (lookup s dir (top / 4096)).isPresent = false)
    (hPage : mapPage standartAllocator dir top s = some t) :
    Accounted dirs t ∧ ∀ q, top / 4096 < q → q < 1048576 →
      (lookup s dir q).isPresent = false → (lookup t dir q).isPresent = false := by
  obtain ⟨idx, hFind, hCases⟩ := mapPage_cases hPage
  obtain ⟨hIdx, hFree, -⟩ := firstFree_spec hFind
  have hFrames := h.frames
  have hCount := freeCount_update hIdx hFree
  have hRoom : HeapRoom s.primitiveHeap
      (freeCount (Function.update s.frameTable.isTaken idx true) s.frameTable.length + 1) := by
    rw [hCount]
    exact h.room
  rcases hCases with ⟨hTable, rfl⟩ | ⟨hNull, rfl⟩
  · rw [lookup_of_eq rfl hTable] at hAbsent
    refine ⟨⟨?_, fun d hd => wellFormed_writePage _ (h.wf d hd), hRoom.mono (Nat.le_succ _),
      hFrames⟩, fun q hLt hq hNot => ?_⟩
    · exact noLeak_writePage h.held (by omega) ⟨hTable, dir, hDir, _, by omega, rfl⟩
        (Nat.mod_lt _ (by decide)) hAbsent
    · rw [lookup_of_table (h.wf dir hDir) (by omega) hTable hq, if_neg (by omega)]
      exact hNot
  · have hA := standartAllocator_aligning
    have hne := hA.ne_zero _ _ hRoom
    have hAligned := hA.aligned _ _ hRoom
    have hPhys := hA.phys _ _ hRoom
    have hFresh : ¬ InUse dirs s (standartAllocator 4096 s.primitiveHeap).ptr := by
      rintro ⟨ha, d, hd, i, hi, hTable⟩
      have hOwned := (h.wf d hd).allocated i hi (hTable ▸ ha)
      rw [hTable] at hOwned
      exact hA.fresh _ _ hRoom hOwned
    have hZero : (standartAllocator 4096 s.primitiveHeap).phys % 1024 = 0 := by omega
    refine ⟨⟨?_, fun d hd => wellFormed_writePage _ ?_, hA.rest _ _ hRoom, hFrames⟩,
      fun q hLt hq hNot => ?_⟩
    · refine noLeak_writePage (noLeak_newTable h.held hNull hFresh) (by omega)
        ⟨hne, dir, hDir, _, by omega, newTable_tables_self⟩ (Nat.mod_lt _ (by decide)) ?_
      rw [newTable_enteries_self]
      rfl
    · by_cases hdd : d = dir
      · rw [hdd]
        exact wellFormed_newTable hA (h.wf dir hDir) hRoom
      · have hSame := newTable_of_ne (i := top / 4096 / 1024)
          (r := standartAllocator 4096 s.primitiveHeap) (s := s) hdd
        exact (h.wf d hd).congr (congrArg PageDirectory.tables hSame)
          fun a => hA.keeps _ _ a hRoom
    · rw [lookup_of_missing (fun j hj hEq => hFresh ⟨hne, dir, hDir, j, hj, hEq⟩) hne hq]
      split
      · rw [hZero, if_neg (by omega)]
        rfl
      · exact hNot

/-! ## The loop -/

/-- The pages that the loop maps from `start`, none of which is present. -/
def FreshPages (s : PagingState) (dir start stop : Nat) : Prop :=
  ∀ k, start + 4096 * k < stop → (lookup s dir (start / 4096 + k)).isPresent = false

theorem accounted_mapLoop (h : Accounted dirs s) (hDir : dir ∈ dirs) (hTop : top < 4294967296)
    (hStop : stop ≤ 4294967296) (hFresh : FreshPages s dir top stop)
    (hRun : mapLoop standartAllocator dir stop fuel top s = some (n, t)) : Accounted dirs t := by
  induction fuel generalizing top s n with
  | zero => cases hRun
  | succ fuel ih =>
    have hReach := mapLoop_reach hTop hRun
    rcases mapLoop_cases hRun with ⟨-, -, rfl⟩ | ⟨k, u, hLt, rfl, hPage, hLoop⟩
    · exact h
    · rw [Nat.mod_eq_of_lt (by omega)] at hLoop
      obtain ⟨hNext, hLater⟩ := accounted_mapPage h hDir hTop (hFresh 0 (by omega)) hPage
      refine ih hNext (by omega) (fun k hk => ?_) hLoop
      have hOld := hFresh (k + 1) (by omega)
      rw [show top / 4096 + (k + 1) = (top + 4096) / 4096 + k by omega] at hOld
      exact hLater _ (by omega) (by omega) hOld

theorem accounted_mapRegion (h : Accounted dirs s) (hDir : target dir s ∈ dirs)
    (hStart : start < 4294967296) (hStop : stop ≤ 4294967296)
    (hFresh : FreshPages s (target dir s) start stop)
    (hRun : mapRegion start stop standartAllocator dir s = some (n, t)) : Accounted dirs t :=
  accounted_mapLoop h hDir hStart hStop hFresh hRun

/-! ## Runs -/

theorem accounted_setUp (h : ImageEnd s) : Accounted [(setUp s).kernelDirectory] (setUp s) := by
  have hReady := ready_setUp h
  refine ⟨fun f hTaken => ?_, fun d hd => ?_, ?_, ?_⟩
  · rw [setUp_frameTable] at hTaken
    cases hTaken
  · rw [List.mem_singleton.mp hd]
    exact hReady.wf
  · rw [setUp_frameTable, freeCount_create]
    exact hReady.space
  · rw [setUp_frameTable]
    decide

theorem Accounted.setBaseTables (h : Accounted dirs s) (n : Nat) :
    Accounted dirs (Paging.setBaseTables n s) where
  held f hTaken := (h.held f hTaken).mono rfl fun _ ha => ha
  wf d hd := (h.wf d hd).congr rfl fun _ ha => ha
  room := h.room
  frames := h.frames

theorem Accounted.enablePaging (h : Accounted [s.kernelDirectory] s) :
    Accounted [s.pagingCurrentDirectory, s.kernelDirectory] (Paging.enablePaging s) := by
  have hKernel := h.wf _ (List.mem_singleton_self _)
  refine ⟨fun f hTaken => (h.held f hTaken).mono rfl ?_, fun d hd => ?_, h.room, h.frames⟩
  · rintro a ⟨ha, d, hd, i, hi, hTable⟩
    rw [List.mem_singleton.mp hd] at hTable
    refine ⟨ha, s.kernelDirectory, List.mem_cons_of_mem _ (List.mem_singleton_self _), i, hi, ?_⟩
    rw [enablePaging_directories (List.mem_cons_of_mem _ (List.mem_singleton_self _))]
    exact hTable
  · constructor
    · rw [enablePaging_directories hd]
      exact hKernel.distinct
    · rw [enablePaging_directories hd]
      exact hKernel.allocated

theorem accounted_boot {heapMapping : Option (Nat × Nat)} (h : ImageEnd s)
    (hInit : pagingInitialize heapMapping s = some t) :
    Accounted (PagingSystem.boot t).dirs (PagingSystem.boot t).paging := by
  obtain ⟨u, v, hBoots⟩ := boots h heapMapping
  obtain rfl : enablePaging v = t := Option.some.inj (hBoots.result.symm.trans hInit)
  have hne : (setUp s).kernelDirectory ≠ 0 := by
    have hPos := h.pos
    obtain ⟨-, hKernel, -⟩ := setUp_heap h
    omega
  have hTarget : ∀ w, target (setUp s).kernelDirectory w = (setUp s).kernelDirectory :=
    fun _ => if_neg hne
  have hEmpty : ∀ q, lookup (setUp s) (setUp s).kernelDirectory q = .zero :=
    fun q => lookup_of_null (setUp_tables _)
  have hImage : Accounted [(setUp s).kernelDirectory] u := by
    refine accounted_mapRegion (accounted_setUp h) ?_ (by decide) (by decide) ?_ hBoots.image
    · rw [hTarget]
      exact List.mem_singleton_self _
    · intro k _
      rw [hTarget, hEmpty]
      rfl
  have hHeap : Accounted [(setUp s).kernelDirectory] v := by
    have hMapHeap := hBoots.heap
    cases heapMapping with
    | none =>
      cases hMapHeap
      exact hImage.setBaseTables 512
    | some m =>
      rw [mapHeap, setBaseTables_kernel, hBoots.imageRoots.kernel] at hMapHeap
      obtain ⟨⟨n, w⟩, hRun, rfl⟩ := Option.map_eq_some_iff.mp hMapHeap
      refine accounted_mapRegion (hImage.setBaseTables 512) ?_ (by decide) (by decide) ?_ hRun
      · rw [hTarget]
        exact List.mem_singleton_self _
      · -- the pages of the heap were not touched when the image was mapped
        intro k hk
        have hOther := hBoots.imageMapped.other (0xC0000000 / 4096 + k) (by omega) (by omega)
        rw [hEmpty] at hOther
        rw [hTarget]
        exact congrArg Page.isPresent hOther
  rw [← hBoots.kernel] at hHeap
  exact hHeap.enablePaging

/-- The calls that map no page their directory has already. Directories are not created in the
runs this is about. -/
def MapsFresh (s : PagingSystem) : PagingEvent → Prop
  | .mapRegion start stop dir => FreshPages s.paging (target dir s.paging) start stop
  | .createDirectory _ => False
  | .pageFault _ addr directory => ∀ dir ∈ directory,
      FreshPages s.paging (target dir s.paging) (addr - addr % 4096)
        ((addr - addr % 4096 + 4096) % 4294967296)

theorem Rooted.target_mem {s : PagingSystem} (h : Rooted s) (hDir : Known s dir) :
    target dir s.paging ∈ s.dirs := by
  unfold target
  split
  · exact h.current
  · exact hDir.resolve_left ‹_›

theorem accounted_step {s t : PagingSystem} {e : PagingEvent} (hRooted : Rooted s)
    (h : Accounted s.dirs s.paging) (hStep : Guarded PagingStep MapsFresh s e t) :
    Rooted t ∧ Accounted t.dirs t.paging := by
  obtain ⟨hFresh, hStep⟩ := hStep
  cases hStep with
  | mapRegion hStart hStop hDir hRun =>
    exact ⟨hRooted.of_sameRoots (mapRegion_sameRoots hRun),
      accounted_mapRegion h (hRooted.target_mem hDir) hStart (Nat.le_of_lt hStop) hFresh hRun⟩
  | createDirectory => exact hFresh.elim
  | pageFault hAddress hDir hFault =>
    obtain ⟨d, n, rfl, hRun⟩ := pageFault_cases hFault
    exact ⟨hRooted.of_sameRoots (mapRegion_sameRoots hRun),
      accounted_mapRegion h (hRooted.target_mem (hDir d rfl)) (by omega) (by omega)
        (hFresh d rfl) hRun⟩

/-- As long as no call maps a page again, every frame that is taken is held. -/
theorem noLeak_of_fresh {heapMapping : Option (Nat × Nat)} {t : PagingSystem}
    {es : List PagingEvent} {s₀ : PagingState} (hEnd : ImageEnd s₀)
    (hInit : pagingInitialize heapMapping s₀ = some s)
    (hRun : Run (Guarded PagingStep MapsFresh) (.boot s) es t) : NoLeak t.dirs t.paging := by
  refine (hRun.invariant (I := fun u => Rooted u ∧ Accounted u.dirs u.paging)
    ⟨⟨?_, ?_⟩, accounted_boot hEnd hInit⟩ fun u e v hu hStep =>
      accounted_step hu.1 hu.2 hStep).2.held
  · exact List.mem_cons_self
  · exact List.mem_cons_of_mem _ (List.mem_singleton_self _)

/-- A fault on a page between the image and the heap. -/
theorem noLeak_of_fresh_fault :
    ∃ s t, pagingInitialize (some (0xC0000000, 0xC1000000)) kernelImage = some s ∧
      Run (Guarded PagingStep MapsFresh) (.boot s)
        [.pageFault 0 0xB0000123 (some s.kernelDirectory)] t ∧
      NoLeak t.dirs t.paging := by
  obtain ⟨u, v, hBoots⟩ := boots imageEnd_kernelImage (some (0xC0000000, 0xC1000000))
  obtain ⟨w, hMap, -⟩ := mapRegion_isSome standartAllocator v.kernelDirectory
    (s := enablePaging v) (p := 720896) (n := 1) (k := 0)
    (Nat.le_trans (by decide : 1 + 0 ≤ 36352) hBoots.frames) (by decide)
  have hFault : pageFaultHandler 0 0xB0000123 (some v.kernelDirectory) (enablePaging v) =
      some w := congrArg (Option.map Prod.snd) hMap
  have hFresh : MapsFresh (.boot (enablePaging v))
      (.pageFault 0 0xB0000123 (some v.kernelDirectory)) := by
    rintro d hd k hk
    obtain rfl : v.kernelDirectory = d := Option.some.inj hd
    have hGap := hBoots.lookup_gap (q := 720896 + k) (by omega) (by omega)
    rw [target, if_neg (hBoots.kernel_ne_zero imageEnd_kernelImage)]
    exact congrArg Page.isPresent hGap
  have hRun : Run (Guarded PagingStep MapsFresh) (.boot (enablePaging v))
      [.pageFault 0 0xB0000123 (some v.kernelDirectory)] ⟨w, _⟩ :=
    .single ⟨hFresh, .pageFault (by decide)
      (fun d hd => Or.inr (Option.some.inj hd ▸ List.mem_cons_of_mem _ List.mem_cons_self)) hFault⟩
  exact ⟨_, _, hBoots.result, hRun, noLeak_of_fresh imageEnd_kernelImage hBoots.result hRun⟩

/-- A region of one page is one iteration. -/
theorem mapPage_of_mapRegion (hDir : dir ≠ 0) (hLt : 4096 * (p + 1) < 4294967296)
    (h : mapRegion (4096 * p) (4096 * (p + 1)) standartAllocator dir s = some (n, t)) :
    mapPage standartAllocator dir (4096 * p) s = some t := by
  rw [mapRegion, target, if_neg hDir, mapVirtToPhys] at h
  rcases mapLoop_cases h with ⟨hEnd, -, -⟩ | ⟨k, u, -, -, hPage, hLoop⟩
  · omega
  · cases hLength : s.frameTable.length with
    | zero =>
      rw [hLength] at hLoop
      cases hLoop
    | succ m =>
      rw [hLength] at hLoop
      rcases mapLoop_cases hLoop with ⟨-, -, rfl⟩ | ⟨j, v, hLt, -⟩
      · exact hPage
      · omega

/-- The first page of the image is mapped a second time. -/
theorem not_noLeak_of_mapped_twice :
    ∃ s t, pagingInitialize (some (0xC0000000, 0xC1000000)) kernelImage = some s ∧
      Run PagingStep (.boot s) [.mapRegion 0 0x1000 s.kernelDirectory] t ∧
      ¬ NoLeak t.dirs t.paging := by
  obtain ⟨u, v, hBoots⟩ := boots imageEnd_kernelImage (some (0xC0000000, 0xC1000000))
  have hne := hBoots.kernel_ne_zero imageEnd_kernelImage
  obtain ⟨w, hMap, -⟩ := mapRegion_isSome standartAllocator v.kernelDirectory
    (s := enablePaging v) (p := 0) (n := 1) (k := 0)
    (Nat.le_trans (by decide : 1 + 0 ≤ 36352) hBoots.frames) (by decide)
  have hDir : v.kernelDirectory ∈ (PagingSystem.boot (enablePaging v)).dirs :=
    List.mem_cons_of_mem _ List.mem_cons_self
  have hRun : Run PagingStep (.boot (enablePaging v)) [.mapRegion 0 0x1000 v.kernelDirectory]
      ⟨w, _⟩ := .single (.mapRegion (by decide) (by decide) (Or.inr hDir) hMap)
  exact ⟨_, _, hBoots.result, hRun, leak_of_present (exclusiveInv_kept.boot hBoots.result) hDir
    (by decide) (hBoots.lookup_image (by decide)) (mapPage_of_mapRegion hne (by decide) hMap)⟩

end Juos.Paging
