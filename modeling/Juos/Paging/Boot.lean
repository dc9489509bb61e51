import Juos.Paging.MapRegion

/-!
# Booting with paging

`Boots` follows `paging::Initialize` step by step from an image end that is not too close to the end
of the address space: both of its regions begin at the start of a table, so they are mapped as
they should be, and there are frames enough for them.
-/

namespace Juos.Paging

open Machine

variable {s u v : PagingState}

theorem setBaseTables_kernel (n : Nat) (s : PagingState) :
    (setBaseTables n s).kernelDirectory = s.kernelDirectory := rfl

theorem setUp_frameTable : (setUp s).frameTable = .create numberOfFrames := by
  simp only [setUp]

theorem setUp_tables (i : Nat) :
    ((setUp s).directories (setUp s).kernelDirectory).tables i = 0 := by
  simp only [setUp, Function.update_self, PageDirectory.zero]

theorem freeCount_create (n : Nat) :
    freeCount (FrameTable.create n).isTaken (FrameTable.create n).length = n := by
  simp [freeCount, FrameTable.create, List.countP_eq_length_filter]

/-- The end of the kernel image, where the linker script puts it: above null, and far from the end
of the address space. -/
structure ImageEnd (s : PagingState) : Prop where
  pos : 0 < s.primitiveHeap
  below : s.primitiveHeap ≤ 0xF0000000

/-- Where `paging::Initialize` puts its objects. -/
theorem setUp_heap (h : ImageEnd s) :
    (setUp s).pagingCurrentDirectory = (s.primitiveHeap + 4095) / 4096 * 4096 ∧
      (setUp s).kernelDirectory = (s.primitiveHeap + 4095) / 4096 * 4096 + 8192 ∧
      (setUp s).primitiveHeap = (s.primitiveHeap + 4095) / 4096 * 4096 + 57344 := by
  have hBelow := h.below
  have hFirst : allocate 8192 s.primitiveHeap = _ := allocate_eq (by omega)
  have hSecond : allocate 8192 ((s.primitiveHeap + 4095) / 4096 * 4096 + 8192) = _ :=
    allocate_eq (by omega)
  have hThird : allocate numberOfFrames
      (((s.primitiveHeap + 4095) / 4096 * 4096 + 8192 + 4095) / 4096 * 4096 + 8192) = _ :=
    allocate_eq (by unfold numberOfFrames; omega)
  simp only [setUp, hFirst, hSecond, hThird]
  exact ⟨trivial, by omega, by unfold numberOfFrames; omega⟩

theorem ready_setUp (h : ImageEnd s) :
    Ready BelowHeap HeapRoom (setUp s) (setUp s).kernelDirectory 0 40960 := by
  have hBelow := h.below
  obtain ⟨-, -, hHeap⟩ := setUp_heap h
  refine ⟨⟨fun i _ j _ hne => ?_, fun i _ hne => ?_⟩, ?_, ?_, by decide⟩
  · exact absurd (setUp_tables i) hne
  · exact absurd (setUp_tables i) hne
  · rw [hHeap]
    exact ⟨by omega, by omega⟩
  · have hLength : min (FrameTable.create numberOfFrames).length 1048576 =
        (FrameTable.create numberOfFrames).length := by decide
    have hFree : freeCount (setUp s).frameTable.isTaken
        (min (setUp s).frameTable.length 1048576) = numberOfFrames := by
      rw [setUp_frameTable, hLength, freeCount_create]
    exact Nat.le_of_eq hFree.symm

theorem Ready.above {dir p n : Nat} (h : Ready BelowHeap HeapRoom s dir p n) :
    Ready BelowHeap (fun h n => HeapRoom h n ∧ s.primitiveHeap ≤ h) s dir p n :=
  ⟨h.wf, ⟨h.space, Nat.le_refl _⟩, h.frames, h.top⟩

/-- The steps of `paging::Initialize`: `u` is the state when the kernel image is mapped, and `v`
the one when the heap is. -/
structure Boots (heapMapping : Option (Nat × Nat)) (s u v : PagingState) : Prop where
  image : mapRegion 0 0x200000 standartAllocator (setUp s).kernelDirectory (setUp s) = some (512, u)
  imageMapped : Mapped (setUp s) u (setUp s).kernelDirectory 0 512
  heap : mapHeap heapMapping (setBaseTables 512 u) = some v
  heapMapped : ∃ n, Mapped (setBaseTables 512 u) v (setUp s).kernelDirectory 786432 n
  imageRoots : SameRoots (setUp s) u
  heapRoots : SameRoots (setBaseTables 512 u) v
  frames : 36352 ≤ freeCount v.frameTable.isTaken v.frameTable.length
  room : HeapRoom v.primitiveHeap 36352
  heap_le : (setUp s).primitiveHeap ≤ v.primitiveHeap
  result : pagingInitialize heapMapping s = some (enablePaging v)

theorem boots (h : ImageEnd s) (heapMapping : Option (Nat × Nat)) :
    ∃ u v, Boots heapMapping s u v := by
  have hA := standartAllocator_aligning_above (setUp s).primitiveHeap
  have hPos := h.pos
  obtain ⟨-, hKernel, -⟩ := setUp_heap h
  have hne : (setUp s).kernelDirectory ≠ 0 := by omega
  obtain ⟨u, hImage, hImageMapped, hReady⟩ := mapRegion_mapped (n := 512) (k := 40448) hA
    (ready_setUp h).above hne (Or.inr rfl) (by decide)
  have hSame := mapRegion_sameRoots hImage
  have hReady' : Ready BelowHeap (fun h n => HeapRoom h n ∧ (setUp s).primitiveHeap ≤ h)
      (setBaseTables 512 u) (setUp s).kernelDirectory 786432 (4096 + 36352) :=
    ⟨⟨hReady.wf.distinct, hReady.wf.allocated⟩, hReady.space, hReady.frames, by decide⟩
  obtain ⟨v, hHeap, hHeapMapped, hRest⟩ := mapRegion_mapped hA hReady' hne (Or.inr (by decide))
    (by decide)
  have hResult : pagingInitialize heapMapping s =
      (mapHeap heapMapping (setBaseTables 512 u)).map enablePaging := by
    rw [pagingInitialize, hImage, Option.bind_some]
  cases heapMapping with
  | none =>
    exact ⟨u, setBaseTables 512 u, hImage, hImageMapped, rfl, ⟨0, .refl _ _ _⟩, hSame, .refl _,
      Nat.le_trans (by decide) hReady.frames_le, hReady.space.1.mono (by decide), hReady.space.2,
      hResult⟩
  | some m =>
    have hMapHeap : mapHeap (some m) (setBaseTables 512 u) = some v := by
      rw [mapHeap, setBaseTables_kernel, hSame.kernel, hHeap, Option.map_some]
    refine ⟨u, v, hImage, hImageMapped, hMapHeap, ⟨4096, hHeapMapped⟩, hSame,
      mapRegion_sameRoots hHeap, hRest.frames_le, hRest.space.1, hRest.space.2, ?_⟩
    rw [hResult, hMapHeap, Option.map_some]

/-- Both directories have the tables of the kernel's. -/
theorem enablePaging_directories {d : Nat}
    (hd : d ∈ [s.pagingCurrentDirectory, s.kernelDirectory]) :
    (enablePaging s).directories d = s.directories s.kernelDirectory := by
  unfold enablePaging
  by_cases hdc : d = s.pagingCurrentDirectory
  · rw [hdc]
    exact Function.update_self ..
  · have hdk : d = s.kernelDirectory := by simpa [hdc] using hd
    rw [hdk] at hdc ⊢
    exact Function.update_of_ne hdc ..

namespace Boots

variable {heapMapping : Option (Nat × Nat)}

theorem kernel (h : Boots heapMapping s u v) : v.kernelDirectory = (setUp s).kernelDirectory :=
  h.heapRoots.kernel.trans h.imageRoots.kernel

theorem kernel_ne_zero (h : Boots heapMapping s u v) (hEnd : ImageEnd s) :
    v.kernelDirectory ≠ 0 := by
  obtain ⟨-, hKernel, -⟩ := setUp_heap hEnd
  rw [h.kernel]
  omega

theorem lookup_kernel (h : Boots heapMapping s u v) {q : Nat} (hq : q < 786432) :
    lookup (enablePaging v) v.kernelDirectory q = lookup u (setUp s).kernelDirectory q := by
  have hDirs := enablePaging_directories (s := v)
    (List.mem_cons_of_mem _ (List.mem_singleton_self _))
  obtain ⟨n, hMapped⟩ := h.heapMapped
  have hOther := hMapped.other q (by omega) (Or.inl hq)
  rw [← h.kernel] at hOther ⊢
  refine Eq.trans ?_ hOther
  unfold lookup
  rw [hDirs]
  rfl

/-- The pages between the image and the heap are not mapped. -/
theorem lookup_gap (h : Boots heapMapping s u v) {q : Nat} (hq : 512 ≤ q) (hq' : q < 786432) :
    lookup (enablePaging v) v.kernelDirectory q = .zero := by
  rw [h.lookup_kernel hq', h.imageMapped.other q (by omega) (by omega)]
  exact lookup_of_null (setUp_tables _)

theorem lookup_image (h : Boots heapMapping s u v) {q : Nat} (hq : q < 512) :
    (lookup (enablePaging v) v.kernelDirectory q).isPresent = true := by
  rw [h.lookup_kernel (by omega)]
  exact (h.imageMapped.present q (by omega) (by omega)).1

end Boots

/-- The state in which the kernel starts, with an image that ends at 1088 KiB. -/
def kernelImage : PagingState where
  primitiveHeap := 0x110000
  frameTable := ⟨0, fun _ => false⟩
  enteries := fun _ _ => .zero
  directories := fun _ => .zero
  pagingCurrentDirectory := 0
  kernelDirectory := 0
  kernelSize := 0
  baseKernelTablesSize := 0
  cr3 := 0
  pagingEnabled := false

theorem imageEnd_kernelImage : ImageEnd kernelImage := ⟨by decide, by decide⟩

end Juos.Paging
