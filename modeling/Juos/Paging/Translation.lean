import Juos.Paging.Boot
import Juos.Machine.Memory

/-!
# Address translation after boot

`translate` is what the processor makes of an address: the address itself while paging is off,
and afterwards the walk through the `table_addresses` of the loaded directory.

The frame table is empty at boot and every page takes the first free frame, so frames are handed
out in order (`mapRegion_inOrder`): the image is mapped to itself, and page `k` of the kernel's
heap to frame `512 + k` (`translate_heap`). The heap's addresses never equal their own physical
addresses.
-/

namespace Juos.Paging

open Machine

variable {A : MemoryAlloctor} {owned room : Nat → Nat → Prop} {dir stop fuel p n k f : Nat}
  {s t u v : PagingState}

/-- The physical address of `a`, or none when the access faults. -/
def translate (s : PagingState) (a : Nat) : Option Nat :=
  if s.pagingEnabled then
    let table := (s.directories s.cr3).tableAddresses (a / 4096 / 1024)
    let page := s.enteries (table / 4096 * 4096) (a / 4096 % 1024)
    if table % 2 = 1 ∧ page.isPresent then some (page.frame * 4096 + a % 4096) else none
  else some a

/-- Memory as a program sees it; where an access faults nothing is read. -/
def virtualMemory (s : PagingState) (m : Memory) : Memory :=
  fun a => (translate s a).elim 0 m

/-! ## Frames in order -/

/-- The frames below `f` are taken and no others. -/
def InOrder (s : PagingState) (f : Nat) : Prop := ∀ i, s.frameTable.isTaken i = true ↔ i < f

theorem InOrder.mapPage {top : Nat} (h : InOrder s f) (hPage : mapPage A dir top s = some t) :
    InOrder t (f + 1) := by
  obtain ⟨idx, hFind, hTable⟩ := mapPage_frameTable hPage
  obtain ⟨-, hFree, hBelow⟩ := firstFree_spec hFind
  obtain rfl : idx = f := by
    have hNot : ¬ idx < f := fun hLt => by simp [(h idx).mpr hLt] at hFree
    by_contra hne
    exact absurd ((h f).mp (hBelow f (by omega))) (Nat.lt_irrefl f)
  intro i
  rw [hTable]
  by_cases hi : i = idx
  · simp [FrameTable.setAtIndex, hi]
  · rw [show (s.frameTable.setAtIndex idx).isTaken i = s.frameTable.isTaken i from
      Function.update_of_ne hi .., h i]
    omega

/-- A page that was mapped well holds the frame taken for it. -/
theorem InOrder.frame_eq (h : InOrder s f) (h' : InOrder t (f + 1)) (hMapped : Mapped s t dir p 1) :
    (lookup t dir p).frame = f := by
  obtain ⟨-, -, hFree, hTaken⟩ := hMapped.present p (Nat.le_refl p) (Nat.lt_succ_self p)
  have hBelow := (h' _).mp hTaken
  have hNot : ¬ (lookup t dir p).frame < f := fun hLt => by simp [(h _).mpr hLt] at hFree
  omega

/-- The first iteration of the loop, and what is left for the others. -/
theorem mapLoop_next (hA : PageAligning A owned room) (h : Ready owned room s dir p (n + 1 + k))
    (hStop : stop = 4096 * (p + (n + 1))) (hLt : stop < 4294967296)
    (hRun : mapLoop A dir stop (fuel + 1) (4096 * p) s = some (n + 1, t)) :
    ∃ u, mapPage A dir (4096 * p) s = some u ∧ Ready owned room u dir (p + 1) (n + k) ∧
      GoodStart u dir (p + 1) ∧ (GoodStart s dir p → Mapped s u dir p 1) ∧
      mapLoop A dir stop fuel (4096 * (p + 1)) u = some (n, t) := by
  rw [Nat.add_right_comm] at h
  obtain ⟨u, hPage, hReady, hNext, hMapped, -⟩ := mapPage_ready hA h
  rw [mapLoop, if_pos (by omega), hPage, Option.bind_some,
    Nat.mod_eq_of_lt (by omega : 4096 * p + 4096 < 4294967296),
    show 4096 * p + 4096 = 4096 * (p + 1) by omega] at hRun
  obtain ⟨⟨l, v⟩, hLoop, hEq⟩ := Option.map_eq_some_iff.mp hRun
  cases hEq
  exact ⟨u, hPage, hReady, hNext, hMapped, hLoop⟩

theorem mapLoop_inOrder (hA : PageAligning A owned room) (h : Ready owned room s dir p (n + k))
    (hGood : GoodStart s dir p) (hOrder : InOrder s f) (hStop : stop = 4096 * (p + n))
    (hLt : stop < 4294967296) (hFuel : n < fuel)
    (hRun : mapLoop A dir stop fuel (4096 * p) s = some (n, t)) :
    InOrder t (f + n) ∧ ∀ i < n, (lookup t dir (p + i)).frame = f + i := by
  obtain ⟨fuel, rfl⟩ : ∃ k, fuel = k + 1 := ⟨fuel - 1, by omega⟩
  induction n generalizing s p f fuel with
  | zero =>
    rw [mapLoop, if_neg (by omega)] at hRun
    cases hRun
    exact ⟨hOrder, fun i hi => absurd hi (Nat.not_lt_zero i)⟩
  | succ n ih =>
    obtain ⟨fuel, rfl⟩ : ∃ k, fuel = k + 1 := ⟨fuel - 1, by omega⟩
    obtain ⟨u, hPage, hReady, hNext, hMapped, hLoop⟩ := mapLoop_next hA h hStop hLt hRun
    obtain ⟨t', hLoop', hRest, -⟩ := mapLoop_mapped hA hReady hNext
      (by omega : stop = 4096 * (p + 1 + n)) hLt (by omega : n < fuel + 1)
    cases hLoop.symm.trans hLoop'
    have hOrder' := hOrder.mapPage hPage
    obtain ⟨hLast, hFrames⟩ := ih hReady hNext hOrder' (by omega) fuel (by omega) hLoop
    -- the later pages leave the entry of the first one alone
    have hFirst : (lookup t dir p).frame = f := by
      rw [hRest.other p (by omega) (Or.inl (Nat.lt_succ_self p))]
      exact hOrder.frame_eq hOrder' (hMapped hGood)
    refine ⟨by rw [Nat.add_comm n 1, ← Nat.add_assoc]; exact hLast, fun i hi => ?_⟩
    cases i with
    | zero => exact hFirst
    | succ i =>
      rw [Nat.add_comm i 1, ← Nat.add_assoc, ← Nat.add_assoc]
      exact hFrames i (by omega)

theorem mapRegion_inOrder (hA : PageAligning A owned room) (h : Ready owned room s dir p (n + k))
    (hDir : dir ≠ 0) (hGood : GoodStart s dir p) (hOrder : InOrder s f)
    (hLt : 4096 * (p + n) < 4294967296)
    (hRun : mapRegion (4096 * p) (4096 * (p + n)) A dir s = some (n, t)) :
    InOrder t (f + n) ∧ ∀ i < n, (lookup t dir (p + i)).frame = f + i := by
  have hFrames := h.frames
  have hAll : freeCount s.frameTable.isTaken (min s.frameTable.length 1048576) ≤
      min s.frameTable.length 1048576 := freeCount_le
  rw [mapRegion, target, if_neg hDir] at hRun
  exact mapLoop_inOrder hA h hGood hOrder rfl hLt (by omega) hRun

/-! ## The tables that are made -/

/-- From a good start, a table is made only for a page that is the first of its table. -/
theorem mapPage_heap_le (h : HeapRoom s.primitiveHeap 1) (hGood : GoodStart s dir p)
    (hPage : mapPage standartAllocator dir (4096 * p) s = some t) :
    (t.primitiveHeap + 4095) / 4096 ≤
      (s.primitiveHeap + 4095) / 4096 + if p % 1024 = 0 then 1 else 0 := by
  have hIndex : 4096 * p / 4096 = p := by omega
  obtain ⟨idx, -, ⟨-, rfl⟩ | ⟨hMissing, rfl⟩⟩ := mapPage_cases hPage
  · exact Nat.le_add_right _ _
  · rw [hIndex] at hMissing
    have hFirst : p % 1024 = 0 := hGood.resolve_left (not_not.mpr hMissing)
    rw [writePage_primitiveHeap, newTable_primitiveHeap, standartAllocator_eq h, if_pos hFirst]
    simp only
    omega

theorem mapLoop_heap_le
    (h : Ready owned HeapRoom s dir p (n + k))
    (hA : PageAligning standartAllocator owned HeapRoom)
    (hGood : GoodStart s dir p) (hStop : stop = 4096 * (p + n)) (hLt : stop < 4294967296)
    (hFuel : n < fuel)
    (hRun : mapLoop standartAllocator dir stop fuel (4096 * p) s = some (n, t)) :
    (t.primitiveHeap + 4095) / 4096 ≤
      (s.primitiveHeap + 4095) / 4096 + ((p + n + 1023) / 1024 - (p + 1023) / 1024) := by
  obtain ⟨fuel, rfl⟩ : ∃ k, fuel = k + 1 := ⟨fuel - 1, by omega⟩
  induction n generalizing s p fuel with
  | zero =>
    rw [mapLoop, if_neg (by omega)] at hRun
    cases hRun
    exact Nat.le_add_right _ _
  | succ n ih =>
    obtain ⟨fuel, rfl⟩ : ∃ k, fuel = k + 1 := ⟨fuel - 1, by omega⟩
    obtain ⟨u, hPage, hReady, hNext, -, hLoop⟩ := mapLoop_next hA h hStop hLt hRun
    have hOne := mapPage_heap_le (h.space.mono (by omega)) hGood hPage
    have hRest := ih hReady hNext (by omega) fuel (by omega) hLoop
    split at hOne <;> omega

theorem mapRegion_heap_le (h : Ready owned HeapRoom s dir p (n + k))
    (hA : PageAligning standartAllocator owned HeapRoom) (hDir : dir ≠ 0)
    (hGood : GoodStart s dir p) (hLt : 4096 * (p + n) < 4294967296)
    (hRun : mapRegion (4096 * p) (4096 * (p + n)) standartAllocator dir s = some (n, t)) :
    (t.primitiveHeap + 4095) / 4096 ≤
      (s.primitiveHeap + 4095) / 4096 + ((p + n + 1023) / 1024 - (p + 1023) / 1024) := by
  have hFrames := h.frames
  have hAll : freeCount s.frameTable.isTaken (min s.frameTable.length 1048576) ≤
      min s.frameTable.length 1048576 := freeCount_le
  rw [mapRegion, target, if_neg hDir] at hRun
  exact mapLoop_heap_le h hA hGood rfl hLt (by omega) hRun

/-! ## The walk -/

/-- A page-aligned table with the low bits that mark an entry as present. -/
theorem tableAddress_eq {a : Nat} (ha : a % 4096 = 0) :
    (a ||| 7) % 2 = 1 ∧ (a ||| 7) / 4096 * 4096 = a := by
  obtain ⟨b, rfl⟩ : ∃ b, a = 2 ^ 3 * b := ⟨a / 8, by omega⟩
  have hOr : 2 ^ 3 * b ||| 7 = 2 ^ 3 * b + 7 := (Nat.two_pow_add_eq_or_of_lt (by decide) b).symm
  omega

/-- The tables are known to the processor under their addresses. -/
def Addressed (s : PagingState) (dir : Nat) : Prop :=
  ∀ i < 1024, (s.directories dir).tables i ≠ 0 → (s.directories dir).tables i % 4096 = 0 ∧
    (s.directories dir).tableAddresses i = (s.directories dir).tables i ||| 7

/-- The processor finds the entry that `_get_page` finds. -/
theorem translate_of_lookup (h : Addressed s s.cr3) (hOn : s.pagingEnabled = true) {a : Nat}
    (ha : a < 4294967296) (hPresent : (lookup s s.cr3 (a / 4096)).isPresent = true) :
    translate s a = some ((lookup s s.cr3 (a / 4096)).frame * 4096 + a % 4096) := by
  have hTable : (s.directories s.cr3).tables (a / 4096 / 1024) ≠ 0 := by
    intro hz
    rw [lookup_of_null hz] at hPresent
    cases hPresent
  obtain ⟨hAligned, hAddress⟩ := h _ (by omega) hTable
  obtain ⟨hBit, hBase⟩ := tableAddress_eq hAligned
  rw [lookup_of_eq rfl hTable] at hPresent ⊢
  simp only [translate, hOn, if_true, hAddress, hBit, hBase, hPresent, and_self]

/-! ## The map that boot leaves -/

/-- The kernel's image is mapped to itself and its heap to the frames behind it. -/
structure InitialMap (s : PagingState) : Prop where
  enabled : s.pagingEnabled = true
  addressed : Addressed s s.cr3
  image : ∀ q < 512, (lookup s s.cr3 q).isPresent = true ∧ (lookup s s.cr3 q).frame = q
  heap : ∀ q < 4096, (lookup s s.cr3 (786432 + q)).isPresent = true ∧
    (lookup s s.cr3 (786432 + q)).frame = 512 + q

/-- An allocator of aligned pages owns aligned pages only. -/
theorem PageAligning.pages (hA : PageAligning A owned room) :
    PageAligning A (fun h a => owned h a ∧ a % 4096 = 0) room where
  aligned := hA.aligned
  phys := hA.phys
  ne_zero := hA.ne_zero
  fresh n h hRoom hOwned := hA.fresh n h hRoom hOwned.1
  owns n h hRoom := ⟨hA.owns n h hRoom, hA.aligned n h hRoom⟩
  keeps n h a hRoom hOwned := ⟨hA.keeps n h a hRoom hOwned.1, hOwned.2⟩
  rest := hA.rest
  mono := hA.mono

theorem inOrder_setUp (s : PagingState) : InOrder (setUp s) 0 := by
  intro i
  rw [setUp_frameTable]
  simp [FrameTable.create]

theorem lookup_enablePaging (s : PagingState) (q : Nat) :
    lookup (enablePaging s) (enablePaging s).cr3 q = lookup s s.kernelDirectory q := by
  have hDirs := enablePaging_directories (s := s) (List.mem_cons_self)
  unfold lookup
  rw [show (enablePaging s).cr3 = s.pagingCurrentDirectory from rfl, hDirs]
  rfl

theorem addressed_enablePaging (h : Addressed s s.kernelDirectory) :
    Addressed (enablePaging s) (enablePaging s).cr3 := by
  have hDirs := enablePaging_directories (s := s) (List.mem_cons_self)
  unfold Addressed
  rw [show (enablePaging s).cr3 = s.pagingCurrentDirectory from rfl, hDirs]
  exact h

/-- Five tables are made, behind the directories and the frame table. -/
theorem initialMap_of_boot {heapMapping : Nat × Nat} (h : ImageEnd s)
    (hInit : pagingInitialize (some heapMapping) s = some t) :
    InitialMap t ∧ t.primitiveHeap ≤ (s.primitiveHeap + 4095) / 4096 * 4096 + 77824 := by
  obtain ⟨-, hKernel, hHeapEnd⟩ := setUp_heap h
  have hPos := h.pos
  have hne : (setUp s).kernelDirectory ≠ 0 := by omega
  have hA := standartAllocator_aligning.pages
  have hReady := ready_setUp h
  have hSetUp : Ready (fun h a => BelowHeap h a ∧ a % 4096 = 0) HeapRoom (setUp s)
      (setUp s).kernelDirectory 0 (512 + 40448) :=
    ⟨⟨fun i _ j _ hTable => absurd (setUp_tables i) hTable,
      fun i _ hTable => absurd (setUp_tables i) hTable⟩, hReady.space, hReady.frames, by decide⟩
  obtain ⟨u, hImage, hImageMapped, hMid⟩ := mapRegion_mapped hA hSetUp hne (Or.inr rfl) (by decide)
  obtain ⟨hImageOrder, hImageFrames⟩ := mapRegion_inOrder hA hSetUp hne (Or.inr rfl)
    (inOrder_setUp s) (by decide) hImage
  have hImageHeap := mapRegion_heap_le hSetUp hA hne (Or.inr rfl) (by decide) hImage
  have hMid' : Ready (fun h a => BelowHeap h a ∧ a % 4096 = 0) HeapRoom (setBaseTables 512 u)
      (setUp s).kernelDirectory 786432 (4096 + 36352) :=
    ⟨⟨hMid.wf.distinct, hMid.wf.allocated⟩, hMid.space, hMid.frames, by decide⟩
  obtain ⟨v, hHeap, hHeapMapped, hEnd⟩ := mapRegion_mapped hA hMid' hne (Or.inr (by decide))
    (by decide)
  obtain ⟨-, hHeapFrames⟩ := mapRegion_inOrder hA hMid' hne (Or.inr (by decide)) hImageOrder
    (by decide) hHeap
  have hHeapHeap : (v.primitiveHeap + 4095) / 4096 ≤
      ((setBaseTables 512 u).primitiveHeap + 4095) / 4096 +
      ((786432 + 4096 + 1023) / 1024 - (786432 + 1023) / 1024) :=
    mapRegion_heap_le hMid' hA hne (Or.inr (by decide)) (by decide) hHeap
  have hRoot : v.kernelDirectory = (setUp s).kernelDirectory :=
    (mapRegion_sameRoots hHeap).kernel.trans (mapRegion_sameRoots hImage).kernel
  obtain rfl : enablePaging v = t := by
    have hMid : mapRegion 0 0x200000 standartAllocator (setUp s).kernelDirectory (setUp s) =
        some (512, u) := hImage
    have hLast : mapRegion 0xC0000000 0xC1000000 standartAllocator (setUp s).kernelDirectory
        (setBaseTables 512 u) = some (4096, v) := hHeap
    rw [pagingInitialize, hMid, Option.bind_some, mapHeap, setBaseTables_kernel,
      (mapRegion_sameRoots hImage).kernel, hLast] at hInit
    exact Option.some.inj hInit
  refine ⟨⟨rfl, addressed_enablePaging fun i hi hTable => ?_, fun q hq => ?_, fun q hq => ?_⟩, ?_⟩
  · rw [hRoot] at hTable ⊢
    refine ⟨(hEnd.wf.allocated i hi hTable).2, ?_⟩
    by_cases hNew : (u.directories (setUp s).kernelDirectory).tables i = 0
    · exact hHeapMapped.created i hi hNew hTable
    · obtain ⟨hSame, hSameAddress⟩ := hHeapMapped.tables i hi hNew
      rw [hSame, hSameAddress]
      exact hImageMapped.created i hi (setUp_tables i) hNew
  · have hOther := hHeapMapped.other q (by omega) (Or.inl (by omega))
    rw [lookup_enablePaging, hRoot, hOther]
    have hFrame := hImageFrames q hq
    rw [Nat.zero_add] at hFrame
    exact ⟨(hImageMapped.present q (Nat.zero_le q) (by omega)).1, hFrame⟩
  · rw [lookup_enablePaging, hRoot]
    exact ⟨(hHeapMapped.present _ (by omega) (by omega)).1, hHeapFrames q hq⟩
  · have hEnd : (enablePaging v).primitiveHeap = v.primitiveHeap := rfl
    have hMidEnd : (setBaseTables 512 u).primitiveHeap = u.primitiveHeap := rfl
    omega

namespace InitialMap

theorem translate_image (h : InitialMap s) {a : Nat} (ha : a < 0x200000) :
    translate s a = some a := by
  obtain ⟨hPresent, hFrame⟩ := h.image (a / 4096) (by omega)
  rw [translate_of_lookup h.addressed h.enabled (by omega) hPresent, hFrame]
  exact congrArg some (by omega)

theorem translate_heap (h : InitialMap s) {a : Nat} (ha : 0xC0000000 ≤ a) (hEnd : a < 0xC1000000) :
    translate s a = some (a - 0xC0000000 + 0x200000) := by
  obtain ⟨hPresent, hFrame⟩ := h.heap (a / 4096 - 786432) (by omega)
  have hPage : 786432 + (a / 4096 - 786432) = a / 4096 := by omega
  rw [hPage] at hPresent hFrame
  rw [translate_of_lookup h.addressed h.enabled (by omega) hPresent, hFrame]
  exact congrArg some (by omega)

end InitialMap

end Juos.Paging
