import Juos.Paging.Exclusive

/-!
# Destroying a directory

`~PageDirectory` frees the frame number of every entry of all 1024 tables, present or not, shared
or not. `DestroyIsLocal` is what it should do. Every directory that `create_directory` returns
shares the first table with the kernel, and the first entry of a table in use is always present,
so the destructor takes at least that frame away from the kernel.
-/

namespace Juos.Paging

open Machine

variable {dirs : List Nat} {s t : PagingState} {d f : Nat}

/-! ## What should be freed -/

/-- The frame is held by a table that no other directory has. -/
def HeldAlone (dirs : List Nat) (d : Nat) (s : PagingState) (f : Nat) : Prop :=
  ∃ i < 1024, (s.directories d).tables i ≠ 0 ∧
    (∀ d' ∈ dirs, d' ≠ d → ∀ k < 1024,
      (s.directories d').tables k ≠ (s.directories d).tables i) ∧
    ∃ j < 1024, (s.enteries ((s.directories d).tables i) j).isPresent = true ∧
      (s.enteries ((s.directories d).tables i) j).frame = f

/-- Exactly the frames that `d` holds alone become free, and no index outside the frame table is
written. -/
structure DestroyIsLocal (dirs : List Nat) (d : Nat) (s : PagingState) : Prop where
  taken : ∀ f, (destroy d s).frameTable.isTaken f = true ↔
    s.frameTable.isTaken f = true ∧ ¬ HeldAlone dirs d s f
  inside : ∀ f ∈ freed d s, f < s.frameTable.length

/-! ## What is freed -/

theorem isTaken_foldl_freeAtIndex (fs : List Nat) (table : FrameTable) :
    (fs.foldl FrameTable.freeAtIndex table).isTaken f = (table.isTaken f && !fs.contains f) := by
  induction fs generalizing table with
  | nil => simp
  | cons g fs ih =>
    rw [List.foldl_cons, ih, FrameTable.freeAtIndex, List.contains_cons]
    by_cases hfg : f = g
    · simp [hfg]
    · have hSame : Function.update table.isTaken g false f = table.isTaken f :=
        Function.update_of_ne hfg ..
      simp only [hSame, beq_false_of_ne hfg, Bool.false_or]

theorem destroy_frameTable (d : Nat) (s : PagingState) :
    (destroy d s).frameTable = (freed d s).foldl FrameTable.freeAtIndex s.frameTable := by
  simp only [destroy]

/-- A frame stays taken exactly when no entry of the directory has its number. -/
theorem destroy_isTaken :
    (destroy d s).frameTable.isTaken f = true ↔
      s.frameTable.isTaken f = true ∧ f ∉ freed d s := by
  rw [destroy_frameTable, isTaken_foldl_freeAtIndex]
  generalize freed d s = fs
  simp

theorem mem_freed :
    f ∈ freed d s ↔ ∃ i < 1024, ∃ j < 1024,
      (s.enteries ((s.directories d).tables i) j).frame = f := by
  simp only [freed, List.mem_flatMap, List.mem_map, List.mem_range]

/-! ## The first entry of a table -/

/-- The first entry of every table in use is present. -/
def FirstPresent (dirs : List Nat) (s : PagingState) : Prop :=
  ∀ a, InUse dirs s a → (s.enteries a 0).isPresent = true

/-- Tables lie on pages, however far the heap has grown. -/
theorem standartAllocator_phys (n heap : Nat) :
    (standartAllocator n heap).phys = (standartAllocator n heap).ptr ∧
      (standartAllocator n heap).phys % 1024 = 0 := by
  refine ⟨rfl, ?_⟩
  unfold standartAllocator allocateWPointer
  by_cases hAligned : heap % 4096 = 0
  · simp only [hAligned, ne_eq, not_true_eq_false, and_false, if_false]
    omega
  · simp only [hAligned, ne_eq, not_false_eq_true, and_self, if_true]
    omega

theorem firstPresent_kept : Kept FirstPresent where
  of_inUse h hEnteries _ hUse a ha := by
    rw [hEnteries]
    exact h a (hUse a ha)
  empty hNone _ a ha := absurd ha (hNone a)
  mapPage := by
    intro dirs s t dir top h hPage a ha
    obtain ⟨idx, -, ⟨-, rfl⟩ | ⟨-, rfl⟩⟩ := mapPage_cases hPage
    · by_cases hLoc : a = (s.directories dir).tables (top / 4096 / 1024) ∧ 0 = top / 4096 % 1024
      · rw [hLoc.1, hLoc.2, writePage_enteries_self]
        rfl
      · rw [writePage_enteries_of_ne _ _ (by tauto)]
        exact h a ha
    · rw [(standartAllocator_phys 4096 s.primitiveHeap).2]
      by_cases har : a = (standartAllocator 4096 s.primitiveHeap).ptr
      · rw [har, writePage_enteries_self]
        rfl
      · rw [writePage_enteries_of_ne _ _ (Or.inl har), newTable_enteries_of_ne har]
        exact h a ((inUse_newTable ha).resolve_right har)

/-! ## No directory is destroyed locally -/

/-- The directory shares its first table with the kernel's. -/
structure SharesImage (s : PagingState) (d : Nat) : Prop where
  exists_table : (s.directories s.kernelDirectory).tables 0 ≠ 0
  shared : (s.directories d).tables 0 = (s.directories s.kernelDirectory).tables 0

theorem not_local_of_shared {dirs : List Nat} (hExclusive : Exclusive dirs s)
    (hFirst : FirstPresent dirs s) (hKernel : s.kernelDirectory ∈ dirs) (hd : d ∈ dirs)
    (hne : d ≠ s.kernelDirectory) (hShares : SharesImage s d) : ¬ DestroyIsLocal dirs d s := by
  intro hLocal
  have hUse : InUse dirs s ((s.directories s.kernelDirectory).tables 0) :=
    ⟨hShares.exists_table, _, hKernel, 0, by decide, rfl⟩
  have hPresent := hFirst _ hUse
  obtain ⟨hTaken, -⟩ := hExclusive.taken _ 0 hUse (by decide) hPresent
  have hFreed : (s.enteries ((s.directories s.kernelDirectory).tables 0) 0).frame ∈ freed d s :=
    mem_freed.mpr ⟨0, by decide, 0, by decide, by rw [hShares.shared]⟩
  -- the frame is the kernel's, so it should have stayed taken
  refine (destroy_isTaken.mp ((hLocal.taken _).mpr ⟨hTaken, ?_⟩)).2 hFreed
  rintro ⟨i, hi, hTable, hAlone, j, hj, hHeld, hFrame⟩
  have hSame := (hExclusive.own _ _ j 0 ⟨hTable, d, hd, i, hi, rfl⟩ hUse hj (by decide) hHeld
    hPresent hFrame).1
  exact hAlone _ hKernel hne.symm 0 (by decide) hSame.symm

/-- In every state that the paging code reaches, destroying a directory that shares the kernel's
first table takes frames away from the kernel. -/
theorem not_destroyIsLocal {heapMapping : Option (Nat × Nat)} {t : PagingSystem}
    {es : List PagingEvent} {s₀ : PagingState} (hInit : pagingInitialize heapMapping s₀ = some s)
    (hRun : Run PagingStep (.boot s) es t) (hd : d ∈ t.dirs)
    (hne : d ≠ t.paging.kernelDirectory) (hShares : SharesImage t.paging d) :
    ¬ DestroyIsLocal t.dirs d t.paging :=
  have hRooted := (exclusiveInv_kept.run hInit hRun).1
  not_local_of_shared (exclusiveInv_kept.run hInit hRun).2.exclusive
    (firstPresent_kept.run hInit hRun).2 hRooted.kernel hd hne hShares

/-! ## Directories that processes get -/

/-- Mapping never replaces a table. -/
theorem tables_mapPage {A : MemoryAlloctor} {dir top i : Nat}
    (hTable : (s.directories d).tables i ≠ 0) (h : mapPage A dir top s = some t) :
    (t.directories d).tables i = (s.directories d).tables i := by
  obtain ⟨idx, -, ⟨-, rfl⟩ | ⟨hNull, rfl⟩⟩ := mapPage_cases h
  · rfl
  · rw [writePage_directories]
    by_cases hd : d = dir
    · subst hd
      apply newTable_tables_of_ne
      rintro rfl
      exact hTable hNull
    · rw [newTable_of_ne hd]

theorem tables_mapRegion {A : MemoryAlloctor} {dir start stop n i : Nat}
    (hTable : (s.directories d).tables i ≠ 0) (h : mapRegion start stop A dir s = some (n, t)) :
    (t.directories d).tables i = (s.directories d).tables i :=
  mapLoop_invariant (I := fun u => (u.directories d).tables i = (s.directories d).tables i)
    (fun _ _ _ hSame hPage => (tables_mapPage (hSame ▸ hTable) hPage).trans hSame) h rfl

theorem createDirectory_address {mappings : List (Nat × Nat)}
    (h : createDirectory mappings s = some (d, t)) : d = (allocate 8192 s.primitiveHeap).ptr := by
  obtain ⟨u, -, hEq⟩ := Option.map_eq_some_iff.mp h
  cases hEq
  rfl

/-- A new directory shares the kernel's first table, whatever is mapped in it. -/
theorem sharesImage_of_createDirectory {mappings : List (Nat × Nat)}
    (hBase : 0 < s.baseKernelTablesSize) (hShares : SharesImage s s.pagingCurrentDirectory)
    (hCurrent : d ≠ s.pagingCurrentDirectory) (hKernel : d ≠ s.kernelDirectory)
    (h : createDirectory mappings s = some (d, t)) : SharesImage t d := by
  have hAddress := createDirectory_address h
  have hNew : ((newDirectory s).directories d).tables 0 =
      (s.directories s.kernelDirectory).tables 0 := by
    rw [hAddress] at hCurrent ⊢
    rw [newDirectory_tables, if_pos ⟨hBase, hCurrent.symm⟩, hShares.shared]
  have hOld : ((newDirectory s).directories s.kernelDirectory).tables 0 =
      (s.directories s.kernelDirectory).tables 0 := by
    rw [newDirectory_of_ne (hAddress ▸ hKernel.symm)]
  obtain ⟨hFirst, hSecond⟩ := createDirectory_invariant
    (I := fun u => (u.directories d).tables 0 = (s.directories s.kernelDirectory).tables 0 ∧
      (u.directories s.kernelDirectory).tables 0 = (s.directories s.kernelDirectory).tables 0)
    (fun u n v start stop hu _ hRun =>
      ⟨(tables_mapRegion (hu.1 ▸ hShares.exists_table) hRun).trans hu.1,
        (tables_mapRegion (hu.2 ▸ hShares.exists_table) hRun).trans hu.2⟩)
    (fun _ => ⟨hNew, hOld⟩) h
  have hSame := createDirectory_sameRoots h
  constructor
  · rw [hSame.kernel, hSecond]
    exact hShares.exists_table
  · rw [hSame.kernel, hSecond, hFirst]

theorem Boots.sharesImage_current {heapMapping : Option (Nat × Nat)} {u v : PagingState}
    (h : Boots heapMapping s u v) : SharesImage (enablePaging v) v.pagingCurrentDirectory := by
  have hPresent := h.lookup_image (by decide : 0 < 512)
  constructor
  · intro hNull
    rw [lookup_of_null hNull] at hPresent
    cases hPresent
  · exact congrArg (fun dir : PageDirectory => dir.tables 0)
      ((enablePaging_directories List.mem_cons_self).trans
        (enablePaging_directories (List.mem_cons_of_mem _ (List.mem_singleton_self _))).symm)

/-- After booting, the directory of the first process is not the kernel's and shares its image. -/
theorem Boots.sharesImage {heapMapping : Option (Nat × Nat)} {u v : PagingState}
    {mappings : List (Nat × Nat)} (h : Boots heapMapping s u v) (hEnd : ImageEnd s)
    (hCreate : createDirectory mappings (enablePaging v) = some (d, t)) :
    d ≠ v.kernelDirectory ∧ SharesImage t d := by
  obtain ⟨hCurrent, hKernel, hHeap⟩ := setUp_heap hEnd
  have hVCurrent : v.pagingCurrentDirectory = (setUp s).pagingCurrentDirectory :=
    h.heapRoots.current.trans h.imageRoots.current
  have hBase : v.baseKernelTablesSize = 1 := h.heapRoots.base
  have hBelow := h.heap_le
  have hRoom := h.room.below
  -- the new directory lies above everything that was allocated before
  have hAddress : d = (v.primitiveHeap + 4095) / 4096 * 4096 := by
    have hEq : allocate 8192 v.primitiveHeap = _ := allocate_eq (by omega)
    rw [createDirectory_address hCreate]
    exact congrArg Allocation.ptr hEq
  have hPast : v.primitiveHeap ≤ d := by omega
  have hne : d ≠ v.pagingCurrentDirectory := by omega
  have hne' : d ≠ v.kernelDirectory := by
    rw [h.kernel]
    omega
  refine ⟨hne', sharesImage_of_createDirectory (s := enablePaging v) ?_ h.sharesImage_current hne
    hne' hCreate⟩
  change 0 < v.baseKernelTablesSize
  omega

/-- The run that boots and starts one process, and what its directory shares. -/
theorem run_of_process :
    ∃ s t d, pagingInitialize (some (0xC0000000, 0xC1000000)) kernelImage = some s ∧
      Run PagingStep (.boot s)
        [.createDirectory [(0xA0000000, 0xA0010000), (0xC0000000, 0xC1000000)]] t ∧
      d ∈ t.dirs ∧ d ≠ t.paging.kernelDirectory ∧ SharesImage t.paging d := by
  obtain ⟨u, v, hBoots⟩ := boots imageEnd_kernelImage (some (0xC0000000, 0xC1000000))
  obtain ⟨w, hCreate, -⟩ := createDirectory_isSome (s := enablePaging v) (k := 0)
    [(0xA0000, 16), (0xC0000, 4096)] (Nat.le_trans (by decide : 4112 ≤ 36352) hBoots.frames)
    (by decide)
  obtain ⟨hne, hShares⟩ := hBoots.sharesImage imageEnd_kernelImage hCreate
  have hRun : Run PagingStep (.boot (enablePaging v))
      [.createDirectory [(0xA0000000, 0xA0010000), (0xC0000000, 0xC1000000)]] ⟨w, _ :: _⟩ :=
    .single (.createDirectory (by decide) hCreate)
  have hSame := createDirectory_sameRoots hCreate
  refine ⟨_, _, _, hBoots.result, hRun, List.mem_cons_self, ?_, hShares⟩
  change _ ≠ w.kernelDirectory
  rw [hSame.kernel]
  exact hne

theorem not_destroyIsLocal_process :
    ∃ s t d, pagingInitialize (some (0xC0000000, 0xC1000000)) kernelImage = some s ∧
      Run PagingStep (.boot s)
        [.createDirectory [(0xA0000000, 0xA0010000), (0xC0000000, 0xC1000000)]] t ∧
      d ∈ t.dirs ∧ ¬ DestroyIsLocal t.dirs d t.paging := by
  obtain ⟨s, t, d, hInit, hRun, hd, hne, hShares⟩ := run_of_process
  exact ⟨s, t, d, hInit, hRun, hd, not_destroyIsLocal hInit hRun hd hne hShares⟩

/-- Not every directory that shares the kernel's image is destroyed locally. -/
theorem not_forall_destroyIsLocal :
    ¬ ∀ (s : PagingState) (es : List PagingEvent) (t : PagingSystem) (d : Nat),
      pagingInitialize (some (0xC0000000, 0xC1000000)) kernelImage = some s →
      Run PagingStep (.boot s) es t → d ∈ t.dirs → d ≠ t.paging.kernelDirectory →
      SharesImage t.paging d → DestroyIsLocal t.dirs d t.paging := by
  intro hLocal
  obtain ⟨s, t, d, hInit, hRun, hd, hne, hShares⟩ := run_of_process
  obtain ⟨hRooted, hInv⟩ := exclusiveInv_kept.run hInit hRun
  exact not_local_of_shared hInv.exclusive (firstPresent_kept.run hInit hRun).2 hRooted.kernel hd
    hne hShares (hLocal s _ t d hInit hRun hd hne hShares)

end Juos.Paging
