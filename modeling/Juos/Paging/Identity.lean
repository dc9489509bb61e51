import Juos.Paging.Translation

/-!
# The identity map

Nothing in `_map_virt_to_phys` says that a page is mapped to the frame of its own number. From an
empty directory and a fresh frame table it comes out so: the first free frame is the one behind all
that were taken, a table is made only for its first page, and the entry written there is the one
with index 0. `Identity` carries these facts from page to page; the tables are all that the
primitive heap must have room for.
-/

namespace Juos.Paging

open Machine

variable {dir fuel k n N : Nat} {s t u : PagingState}

theorem InOrder.findFirst (h : InOrder s k) (hk : k < s.frameTable.length) :
    s.frameTable.findFirst = some k := by
  apply List.find?_range_eq_some.mpr
  refine ⟨?_, List.mem_range.mpr hk, fun j hj => ?_⟩
  · have hNot : ¬ s.frameTable.isTaken k = true := fun hTaken =>
      absurd ((h k).mp hTaken) (Nat.lt_irrefl k)
    simpa using hNot
  · simpa using (h j).mpr hj

/-- The first `k` pages of the directory are mapped to the frames of the same numbers, starting
from `s`. -/
structure Identity (s t : PagingState) (dir k : Nat) : Prop where
  order : InOrder t k
  length_eq : t.frameTable.length = s.frameTable.length
  page : ∀ q < k, (lookup t dir q).isPresent = true ∧ (lookup t dir q).frame = q
  wf : WellFormed BelowHeap t dir
  made : ∀ i < 1024, (t.directories dir).tables i ≠ 0 ↔ i < (k + 1023) / 1024
  pos : 0 < t.primitiveHeap
  heap : (t.primitiveHeap + 4095) / 4096 =
    (s.primitiveHeap + 4095) / 4096 + (k + 1023) / 1024

theorem Identity.init (hEmpty : ∀ i < 1024, (s.directories dir).tables i = 0) (hOrder : InOrder s 0)
    (hPos : 0 < s.primitiveHeap) : Identity s s dir 0 where
  order := hOrder
  length_eq := rfl
  page q hq := absurd hq (Nat.not_lt_zero q)
  wf := ⟨fun i hi _ _ hTable => absurd (hEmpty i hi) hTable,
    fun i hi hTable => absurd (hEmpty i hi) hTable⟩
  made i hi := iff_of_false (fun hTable => hTable (hEmpty i hi)) (by omega)
  pos := hPos
  heap := rfl

/-- A page that was mapped with the next frame. -/
theorem Identity.extend (h : Identity s t dir k) (hk : k < 1048576) (hOrder : InOrder u (k + 1))
    (hMapped : Mapped t u dir k 1) (hWf : WellFormed BelowHeap u dir) (hPos : 0 < u.primitiveHeap)
    (hMade : ∀ i < 1024, (u.directories dir).tables i ≠ 0 ↔ i < (k + 1 + 1023) / 1024)
    (hHeap : (u.primitiveHeap + 4095) / 4096 =
      (s.primitiveHeap + 4095) / 4096 + (k + 1 + 1023) / 1024) : Identity s u dir (k + 1) where
  order := hOrder
  length_eq := hMapped.length_eq.trans h.length_eq
  page q hq := by
    rcases Nat.lt_succ_iff_lt_or_eq.mp hq with hLt | rfl
    · rw [hMapped.other q (Nat.lt_trans hLt hk) (Or.inl hLt)]
      exact h.page q hLt
    · exact ⟨(hMapped.present q (Nat.le_refl q) (Nat.lt_succ_self q)).1,
        h.order.frame_eq hOrder hMapped⟩
  wf := hWf
  made := hMade
  pos := hPos
  heap := hHeap

/-- A page of a table that was made for an earlier one. -/
theorem Identity.step_of_table (h : Identity s t dir k) (hk : k < s.frameTable.length)
    (hTop : k < 1048576) (hLater : k % 1024 ≠ 0) :
    ∃ u, mapPage standartAllocator dir (4096 * k) t = some u ∧ Identity s u dir (k + 1) := by
  have hFind := h.order.findFirst (h.length_eq ▸ hk)
  have hTable : (t.directories dir).tables (k / 1024) ≠ 0 := (h.made _ (by omega)).mpr (by omega)
  have hPage := mapPage_of_table_page (A := standartAllocator) hFind hTable
  have hTables : (k + 1 + 1023) / 1024 = (k + 1023) / 1024 := by omega
  refine ⟨_, hPage, h.extend hTop (h.order.mapPage hPage)
    (mapped_writePage h.wf hFind hTop hTop hTable) (wellFormed_writePage _ h.wf) h.pos ?_ ?_⟩
  · rw [hTables]
    exact h.made
  · rw [hTables]
    exact h.heap

/-- The first page of a table, which is made at the next page of the primitive heap. -/
theorem Identity.step_of_missing (h : Identity s t dir k) (hk : k < s.frameTable.length)
    (hTop : k < 1048576) (hFirst : k % 1024 = 0)
    (hRoom : HeapRoom s.primitiveHeap ((k + 1 + 1023) / 1024)) :
    ∃ u, mapPage standartAllocator dir (4096 * k) t = some u ∧ Identity s u dir (k + 1) := by
  have hFind := h.order.findFirst (h.length_eq ▸ hk)
  have hTable : (t.directories dir).tables (k / 1024) = 0 := by
    by_contra hMade
    have := (h.made _ (by omega)).mp hMade
    omega
  have hHeap := h.heap
  have hSpace : HeapRoom t.primitiveHeap (0 + 1) := by
    have hBelow := hRoom.below
    exact ⟨h.pos, by omega⟩
  have hPage := mapPage_of_missing_page (A := standartAllocator) hFind hTable
  have hFresh := h.wf.fresh standartAllocator_aligning hSpace
  have hne := standartAllocator_aligning.ne_zero 0 _ hSpace
  have hMapped := mapped_newTable hFind hTop hTop hTable hFirst hFresh hne
    (standartAllocator_aligning.phys 0 _ hSpace) (standartAllocator_aligning.aligned 0 _ hSpace)
  have hEnd : (standartAllocator 4096 t.primitiveHeap).primitiveHeap =
      (t.primitiveHeap + 4095) / 4096 * 4096 + 4096 := by
    rw [standartAllocator_eq hSpace]
  refine ⟨_, hPage, h.extend hTop (h.order.mapPage hPage) hMapped
    (wellFormed_writePage _ (wellFormed_newTable standartAllocator_aligning h.wf hSpace)) ?_ ?_ ?_⟩
  · rw [writePage_primitiveHeap, newTable_primitiveHeap, hEnd]
    omega
  · intro i hi
    rw [writePage_directories]
    by_cases hik : i = k / 1024
    · rw [hik, newTable_tables_self]
      exact iff_of_true hne (by omega)
    · rw [newTable_tables_of_ne hik, h.made i hi]
      omega
  · rw [writePage_primitiveHeap, newTable_primitiveHeap, hEnd]
    omega

theorem Identity.step (h : Identity s t dir k) (hk : k < s.frameTable.length)
    (hTop : k < 1048576) (hRoom : HeapRoom s.primitiveHeap ((k + 1 + 1023) / 1024)) :
    ∃ u, mapPage standartAllocator dir (4096 * k) t = some u ∧ Identity s u dir (k + 1) := by
  by_cases hFirst : k % 1024 = 0
  · exact h.step_of_missing hk hTop hFirst hRoom
  · exact h.step_of_table hk hTop hFirst

/-- The loop maps the pages that are left. -/
theorem Identity.loop (h : Identity s t dir k) (hn : k + n ≤ s.frameTable.length)
    (hTop : k + n < 1048576) (hRoom : HeapRoom s.primitiveHeap ((k + n + 1023) / 1024))
    (hFuel : n < fuel) :
    ∃ u, mapLoop standartAllocator dir (4096 * (k + n)) fuel (4096 * k) t = some (n, u) ∧
      Identity s u dir (k + n) := by
  induction n generalizing t k fuel with
  | zero =>
    obtain ⟨fuel, rfl⟩ : ∃ j, fuel = j + 1 := ⟨fuel - 1, by omega⟩
    refine ⟨t, ?_, h⟩
    rw [mapLoop, if_neg (by omega)]
  | succ n ih =>
    obtain ⟨fuel, rfl⟩ : ∃ j, fuel = j + 1 := ⟨fuel - 1, by omega⟩
    obtain ⟨v, hPage, hNext⟩ := h.step (by omega) (by omega) (hRoom.mono (by omega))
    have hSum : k + 1 + n = k + (n + 1) := by omega
    obtain ⟨u, hLoop, hDone⟩ : ∃ u,
        mapLoop standartAllocator dir (4096 * (k + 1 + n)) fuel (4096 * (k + 1)) v = some (n, u) ∧
          Identity s u dir (k + 1 + n) :=
      ih hNext (by omega) (by omega) (by rwa [hSum]) (by omega)
    rw [hSum] at hLoop hDone
    refine ⟨u, ?_, hDone⟩
    rw [mapLoop, if_pos (by omega), hPage, Option.bind_some,
      Nat.mod_eq_of_lt (by omega : 4096 * k + 4096 < 4294967296),
      show 4096 * k + 4096 = 4096 * (k + 1) by omega, hLoop]
    rfl

/-- A region from 0 on, of any whole number of pages for which there are frames, is mapped to
itself, and no frame behind it is taken. -/
theorem mapRegion_identity (hEmpty : ∀ i < 1024, (s.directories (target dir s)).tables i = 0)
    (hFresh : s.frameTable = .create numberOfFrames) (hAligned : N % 4096 = 0)
    (hN : N ≤ 4096 * numberOfFrames)
    (hRoom : HeapRoom s.primitiveHeap ((N / 4096 + 1023) / 1024)) :
    ∃ t, mapRegion 0 N standartAllocator dir s = some (N / 4096, t) ∧
      (∀ k < N / 4096, (lookup t (target dir s) k).isPresent = true ∧
        (lookup t (target dir s) k).frame = k) ∧
      ∀ f, t.frameTable.isTaken f = true ↔ f < N / 4096 := by
  obtain ⟨n, rfl⟩ : ∃ n, N = 4096 * n := ⟨N / 4096, by omega⟩
  have hPages : 4096 * n / 4096 = n := by omega
  rw [hPages] at hRoom ⊢
  have hLength : s.frameTable.length = numberOfFrames := by rw [hFresh]; rfl
  have hOrder : InOrder s 0 := by
    intro i
    rw [hFresh]
    simp [FrameTable.create]
  have hFrames : n ≤ s.frameTable.length := by omega
  have hTop : n < 1048576 := by
    unfold numberOfFrames at hN
    omega
  have hFuel : n < s.frameTable.length + 1 := by omega
  obtain ⟨t, hLoop, hDone⟩ := (Identity.init hEmpty hOrder hRoom.pos).loop (n := n) (by omega)
    (by omega) (by rwa [Nat.zero_add]) hFuel
  rw [Nat.zero_add] at hLoop hDone
  exact ⟨t, hLoop, hDone.page, hDone.order⟩

/-- Three and a half tables. -/
theorem mapRegion_identity_kernel : ∃ t,
    mapRegion 0 0xE00000 standartAllocator (setUp kernelImage).kernelDirectory (setUp kernelImage) =
      some (0xE00, t) ∧
    (∀ k < 0xE00, (lookup t (setUp kernelImage).kernelDirectory k).isPresent = true ∧
      (lookup t (setUp kernelImage).kernelDirectory k).frame = k) ∧
    ∀ f, t.frameTable.isTaken f = true ↔ f < 0xE00 := by
  obtain ⟨-, hDir, hHeap⟩ := setUp_heap imageEnd_kernelImage
  have hTarget : target (setUp kernelImage).kernelDirectory (setUp kernelImage) =
      (setUp kernelImage).kernelDirectory := by
    apply if_neg
    rw [hDir]
    decide
  have hRoom : HeapRoom (setUp kernelImage).primitiveHeap ((0xE00000 / 4096 + 1023) / 1024) := by
    rw [hHeap]
    exact ⟨by decide, by decide⟩
  have hAll := mapRegion_identity (N := 0xE00000)
    (by rw [hTarget]; exact fun i _ => setUp_tables i) setUp_frameTable (by decide) (by decide)
    hRoom
  rw [hTarget] at hAll
  exact hAll

end Juos.Paging
