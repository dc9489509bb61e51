import Juos.Paging.Leaks
import Juos.Paging.PrimitiveHeap
import Juos.Paging.Translation

/-!
# The tables that directories share

`create_directory` gives a new directory the first table of the current one and tables of its own
for everything else. `Separated` says so of all directories that exist, with what the processor
finds in each of them.

The tables are objects here, read by the processor under the address that the code writes them at.
That takes memory for them that is mapped to itself and that nothing else is mapped to; when the
calls leave it so is the subject of `Faults`.
-/

namespace Juos.Paging

open Machine

/-- The physical address of `a` when the directory at `d` is loaded. -/
def translateIn (s : PagingState) (d a : Nat) : Option Nat := translate { s with cr3 := d } a

variable {dirs roots : List Nat} {s t : PagingState} {dir d top n i a : Nat}

/-! ## The walk of the processor -/

/-- A null table has no address for the processor, and any other its own. -/
structure Walked (s : PagingState) (d : Nat) : Prop where
  null : ∀ i < 1024, (s.directories d).tables i = 0 → (s.directories d).tableAddresses i = 0
  addressed : Addressed s d

theorem Walked.congr (h : Walked s d) (hSame : t.directories d = s.directories d) :
    Walked t d := by
  constructor
  · rw [hSame]
    exact h.null
  · unfold Addressed
    rw [hSame]
    exact h.addressed

/-- The processor finds what `_get_page` finds. -/
theorem translateIn_eq (h : Walked s d) (hOn : s.pagingEnabled = true) (ha : a < 4294967296) :
    translateIn s d a = if (lookup s d (a / 4096)).isPresent then
      some ((lookup s d (a / 4096)).frame * 4096 + a % 4096) else none := by
  by_cases hTable : (s.directories d).tables (a / 4096 / 1024) = 0
  · have hAddress := h.null _ (by omega) hTable
    rw [lookup_of_null hTable, translateIn, translate]
    simp [hOn, hAddress, Page.zero]
  · obtain ⟨hAligned, hAddress⟩ := h.addressed _ (by omega) hTable
    obtain ⟨hBit, hBase⟩ := tableAddress_eq hAligned
    rw [lookup_of_eq rfl hTable, translateIn, translate]
    simp only [hOn, if_true, hAddress, hBit, hBase, true_and]

/-! ## Tables of one directory only -/

theorem writePage_pagingEnabled (loc : Nat × Nat) (idx : Nat) (s : PagingState) :
    (writePage loc idx s).pagingEnabled = s.pagingEnabled := rfl

theorem newTable_pagingEnabled (dir i : Nat) (r : Allocation) (s : PagingState) :
    (newTable dir i r s).pagingEnabled = s.pagingEnabled := rfl

/-- What holds of the directories from the first mapping on. -/
structure Walkable (dirs : List Nat) (s : PagingState) : Prop where
  walked : ∀ d ∈ dirs, Walked s d
  wf : ∀ d ∈ dirs, WellFormed BelowHeap s d
  room : HeapRoom s.primitiveHeap (framesLeft s)
  below : ∀ d ∈ dirs, d ≠ 0 ∧ d < s.primitiveHeap

/-- A table that is made for a directory. -/
structure Made (dirs : List Nat) (dir i : Nat) (s t : PagingState) : Prop where
  null : (s.directories dir).tables i = 0
  fresh : ∀ d ∈ dirs, ∀ j < 1024, (s.directories d).tables j ≠ (t.directories dir).tables i
  ne_zero : (t.directories dir).tables i ≠ 0
  above : s.primitiveHeap ≤ (t.directories dir).tables i
  tables : ∀ j ≠ i, (t.directories dir).tables j = (s.directories dir).tables j
  others : ∀ d ≠ dir, t.directories d = s.directories d

section NewTable

variable {u : PagingState}

/-- No directory leads to the page that is handed out for a table. -/
theorem Walkable.fresh (h : Walkable dirs s) (hRoom : HeapRoom s.primitiveHeap (n + 1))
    (hd : d ∈ dirs) (hi : i < 1024) :
    (s.directories d).tables i ≠ (standartAllocator 4096 s.primitiveHeap).ptr := by
  intro hEq
  have hne := standartAllocator_aligning.ne_zero _ _ hRoom
  have hOwned := (h.wf d hd).allocated i hi (hEq ▸ hne)
  rw [hEq] at hOwned
  exact standartAllocator_aligning.fresh _ _ hRoom hOwned

theorem Walkable.walked_newTable (h : Walkable dirs s) (hRoom : HeapRoom s.primitiveHeap (n + 1))
    (hd : d ∈ dirs) : Walked (newTable dir i (standartAllocator 4096 s.primitiveHeap) s) d := by
  have hA := standartAllocator_aligning
  by_cases hdd : d = dir
  · subst hdd
    constructor
    · intro j hj hZero
      by_cases hji : j = i
      · subst hji
        rw [newTable_tables_self] at hZero
        exact absurd hZero (hA.ne_zero _ _ hRoom)
      · rw [newTable_tables_of_ne hji] at hZero
        rw [newTable_addresses_of_ne hji]
        exact (h.walked d hd).null j hj hZero
    · intro j hj hOther
      by_cases hji : j = i
      · subst hji
        rw [newTable_tables_self, newTable_addresses_self, hA.phys _ _ hRoom]
        exact ⟨hA.aligned _ _ hRoom, rfl⟩
      · rw [newTable_tables_of_ne hji] at hOther ⊢
        rw [newTable_addresses_of_ne hji]
        exact (h.walked d hd).addressed j hj hOther
  · exact (h.walked d hd).congr (newTable_of_ne hdd)

theorem Walkable.wf_newTable (h : Walkable dirs s) (hRoom : HeapRoom s.primitiveHeap (n + 1))
    (hd : d ∈ dirs) :
    WellFormed BelowHeap (newTable dir i (standartAllocator 4096 s.primitiveHeap) s) d := by
  have hA := standartAllocator_aligning
  by_cases hdd : d = dir
  · subst hdd
    exact wellFormed_newTable hA (h.wf d hd) hRoom
  · have hSame := newTable_of_ne (i := i) (r := standartAllocator 4096 s.primitiveHeap) (s := s) hdd
    exact (h.wf d hd).congr (congrArg PageDirectory.tables hSame) fun a => hA.keeps _ _ a hRoom

theorem heap_le_standartAllocator (hRoom : HeapRoom s.primitiveHeap (n + 1)) :
    s.primitiveHeap ≤ (standartAllocator 4096 s.primitiveHeap).primitiveHeap := by
  rw [standartAllocator_eq (hRoom.mono (by omega))]
  simp only
  omega

theorem Walkable.newTable (h : Walkable dirs s) (hRoom : HeapRoom s.primitiveHeap (n + 1))
    (hNull : (s.directories dir).tables i = 0)
    (hHeap : u.primitiveHeap = (standartAllocator 4096 s.primitiveHeap).primitiveHeap)
    (hDirectories : u.directories =
      (newTable dir i (standartAllocator 4096 s.primitiveHeap) s).directories)
    (hLeft : framesLeft u = n) :
    Walkable dirs u ∧ Made dirs dir i s u := by
  have hA := standartAllocator_aligning
  have hLe := heap_le_standartAllocator hRoom
  have hTable : (u.directories dir).tables i = (standartAllocator 4096 s.primitiveHeap).ptr := by
    rw [hDirectories, newTable_tables_self]
  refine ⟨⟨fun d hd => ?_, fun d hd => ?_, ?_, fun d hd => ?_⟩, ?_⟩
  · exact (h.walked_newTable hRoom hd).congr (congrFun hDirectories d)
  · refine (h.wf_newTable hRoom hd).congr (congrArg PageDirectory.tables (congrFun hDirectories d))
      fun a hOwned => ?_
    rw [hHeap]
    exact hOwned
  · rw [hHeap, hLeft]
    exact hA.rest _ _ hRoom
  · obtain ⟨hne, hLt⟩ := h.below d hd
    rw [hHeap]
    exact ⟨hne, Nat.lt_of_lt_of_le hLt hLe⟩
  · refine ⟨hNull, fun d hd j hj => ?_, ?_, ?_, fun j hj => ?_, fun d hd => ?_⟩
    · rw [hTable]
      exact h.fresh hRoom hd hj
    · rw [hTable]
      exact hA.ne_zero _ _ hRoom
    · rw [hTable, standartAllocator_eq (hRoom.mono (by omega))]
      simp only
      omega
    · rw [hDirectories, newTable_tables_of_ne hj]
    · rw [hDirectories, newTable_of_ne hd]

end NewTable

/-- All that an iteration does to the directories. -/
theorem Walkable.mapPage (h : Walkable dirs s)
    (hPage : mapPage standartAllocator dir top s = some t) :
    Walkable dirs t ∧ s.primitiveHeap ≤ t.primitiveHeap ∧ t.pagingEnabled = s.pagingEnabled ∧
      (t.directories = s.directories ∨ Made dirs dir (top / 4096 / 1024) s t) := by
  have hLess : framesLeft t + 1 = framesLeft s := freeCount_mapPage hPage
  have hRoom : HeapRoom s.primitiveHeap (framesLeft t + 1) := by
    rw [hLess]
    exact h.room
  obtain ⟨idx, -, ⟨-, hWrite⟩ | ⟨hNull, hWrite⟩⟩ := mapPage_cases hPage
  · have hDirectories : t.directories = s.directories := by rw [hWrite, writePage_directories]
    have hHeap : t.primitiveHeap = s.primitiveHeap := by rw [hWrite, writePage_primitiveHeap]
    have hOn : t.pagingEnabled = s.pagingEnabled := by rw [hWrite, writePage_pagingEnabled]
    refine ⟨⟨fun d hd => ?_, fun d hd => ?_, ?_, fun d hd => ?_⟩, hHeap.ge, hOn, .inl hDirectories⟩
    · exact (h.walked d hd).congr (congrFun hDirectories d)
    · refine (h.wf d hd).congr (congrArg PageDirectory.tables (congrFun hDirectories d)) fun a => ?_
      rw [hHeap]
      exact id
    · rw [hHeap]
      exact hRoom.mono (Nat.le_succ _)
    · rw [hHeap]
      exact h.below d hd
  · have hDirectories : t.directories =
        (Paging.newTable dir (top / 4096 / 1024) (standartAllocator 4096 s.primitiveHeap)
          s).directories := by rw [hWrite, writePage_directories]
    have hHeap : t.primitiveHeap = (standartAllocator 4096 s.primitiveHeap).primitiveHeap := by
      rw [hWrite, writePage_primitiveHeap, newTable_primitiveHeap]
    have hOn : t.pagingEnabled = s.pagingEnabled := by
      rw [hWrite, writePage_pagingEnabled, newTable_pagingEnabled]
    have hLeft : framesLeft t = framesLeft t := rfl
    obtain ⟨hWalkable, hMade⟩ := h.newTable hRoom hNull hHeap hDirectories hLeft
    refine ⟨hWalkable, ?_, hOn, .inr hMade⟩
    rw [hHeap]
    exact heap_le_standartAllocator hRoom

/-- The tables that directories share. Those in `roots` were there at boot; any other has the first
table of the current directory and no other table with anybody. -/
structure Separated (roots dirs : List Nat) (s : PagingState) : Prop extends Walkable dirs s where
  enabled : s.pagingEnabled = true
  base : s.baseKernelTablesSize = 1
  current : s.pagingCurrentDirectory ∈ roots
  roots_mem : ∀ d ∈ roots, d ∈ dirs
  first : ∀ d ∈ dirs, (s.directories d).tables 0 ≠ 0 ∧
    (s.directories d).tables 0 = (s.directories s.pagingCurrentDirectory).tables 0
  own : ∀ d ∈ dirs, d ∉ roots → ∀ i < 1024, i ≠ 0 → (s.directories d).tables i ≠ 0 →
    ∀ e ∈ dirs, ∀ j < 1024, (s.directories e).tables j = (s.directories d).tables i →
      e = d ∧ j = i

theorem Made.old (h : Made dirs dir i s t) {j : Nat} (hne : ¬ (d = dir ∧ j = i)) :
    (t.directories d).tables j = (s.directories d).tables j := by
  by_cases hdd : d = dir
  · subst hdd
    exact h.tables j fun hji => hne ⟨rfl, hji⟩
  · rw [h.others d hdd]

theorem Separated.mapPage (h : Separated roots dirs s)
    (hPage : mapPage standartAllocator dir top s = some t) : Separated roots dirs t := by
  have hSame := mapPage_sameRoots hPage
  obtain ⟨hWalkable, -, hOn, hDirectories | hMade⟩ := h.toWalkable.mapPage hPage
  · refine ⟨hWalkable, hOn.trans h.enabled, hSame.base.trans h.base, ?_, h.roots_mem, ?_, ?_⟩
    · rw [hSame.current]
      exact h.current
    · rw [hDirectories, hSame.current]
      exact h.first
    · rw [hDirectories]
      exact h.own
  · have hFirst : ∀ d ∈ dirs, (t.directories d).tables 0 = (s.directories d).tables 0 := by
      intro d hd
      apply hMade.old
      rintro ⟨rfl, hZero⟩
      exact (h.first d hd).1 (hZero ▸ hMade.null)
    refine ⟨hWalkable, hOn.trans h.enabled, hSame.base.trans h.base, ?_, h.roots_mem,
      fun d hd => ?_, fun d hd hOut k hk hPos hTable e he j hj hEq => ?_⟩
    · rw [hSame.current]
      exact h.current
    · rw [hSame.current, hFirst d hd, hFirst _ (h.roots_mem _ h.current)]
      exact h.first d hd
    · -- the table that was made is no table of before
      by_cases hNew : d = dir ∧ k = top / 4096 / 1024
      · by_cases hNew' : e = dir ∧ j = top / 4096 / 1024
        · exact ⟨hNew'.1.trans hNew.1.symm, hNew'.2.trans hNew.2.symm⟩
        · rw [hMade.old hNew', hNew.1, hNew.2] at hEq
          exact absurd hEq (hMade.fresh e he j hj)
      · rw [hMade.old hNew] at hEq hTable
        by_cases hNew' : e = dir ∧ j = top / 4096 / 1024
        · rw [hNew'.1, hNew'.2] at hEq
          exact absurd hEq.symm (hMade.fresh d hd k hk)
        · rw [hMade.old hNew'] at hEq
          exact h.own d hd hOut k hk hPos hTable e he j hj hEq

theorem Separated.mapRegion (h : Separated roots dirs s) {start stop : Nat}
    (hRun : mapRegion start stop standartAllocator dir s = some (n, t)) :
    Separated roots dirs t :=
  mapLoop_invariant (fun _ _ _ hInv hPage => hInv.mapPage hPage) hRun h

/-! ## A new directory -/

/-- What `create_directory` starts from. -/
structure Started (s t : PagingState) (dir : Nat) : Prop where
  tables : (t.directories dir).tables =
    fun i => if i < 1 then (s.directories s.pagingCurrentDirectory).tables i else 0
  addresses : (t.directories dir).tableAddresses =
    fun i => if i < 1 then (s.directories s.pagingCurrentDirectory).tableAddresses i else 0
  others : ∀ d ≠ dir, t.directories d = s.directories d
  heap_le : s.primitiveHeap ≤ dir
  ne_zero : dir ≠ 0
  heap : t.primitiveHeap = dir + 8192
  left : framesLeft t = framesLeft s

theorem started_newDirectory (hBase : s.baseKernelTablesSize = 1)
    (hCurrent : s.pagingCurrentDirectory < s.primitiveHeap)
    (hRoom : HeapRoom s.primitiveHeap (n + 2)) :
    Started s (newDirectory s) (allocate 8192 s.primitiveHeap).ptr := by
  have hPos := hRoom.pos
  have hBelow := hRoom.below
  have hEq : allocate 8192 s.primitiveHeap = _ := allocate_eq (by omega)
  have hPtr : (allocate 8192 s.primitiveHeap).ptr = (s.primitiveHeap + 4095) / 4096 * 4096 :=
    congrArg Allocation.ptr hEq
  have hHeap : (allocate 8192 s.primitiveHeap).primitiveHeap =
      (s.primitiveHeap + 4095) / 4096 * 4096 + 8192 := congrArg Allocation.primitiveHeap hEq
  have hne : s.pagingCurrentDirectory ≠ (allocate 8192 s.primitiveHeap).ptr := by
    rw [hPtr]
    omega
  refine ⟨?_, ?_, fun d hd => newDirectory_of_ne hd, ?_, ?_, ?_, ?_⟩
  · simp only [newDirectory, Function.update_self, Function.update_of_ne hne, hBase]
  · simp only [newDirectory, Function.update_self, Function.update_of_ne hne, hBase]
  · rw [hPtr]
    omega
  · rw [hPtr]
    omega
  · simp only [newDirectory, hHeap, hPtr]
  · rw [framesLeft, newDirectory_frameTable, framesLeft]

theorem Started.tables_pos (h : Started s t dir) {j : Nat} (hj : j ≠ 0) :
    (t.directories dir).tables j = 0 := by
  rw [h.tables]
  exact if_neg (by omega)

theorem Started.tables_zero (h : Started s t dir) :
    (t.directories dir).tables 0 = (s.directories s.pagingCurrentDirectory).tables 0 := by
  rw [h.tables]
  exact if_pos Nat.one_pos

theorem Started.walkable (h : Started s t dir) (hWalkable : Walkable dirs s)
    (hCurrent : s.pagingCurrentDirectory ∈ dirs)
    (hRoom : HeapRoom s.primitiveHeap (framesLeft s + 2))
    (hPtr : dir = (s.primitiveHeap + 4095) / 4096 * 4096) : Walkable (dir :: dirs) t := by
  have hBelow := hRoom.below
  have hHeap := h.heap
  have hLe := h.heap_le
  have hOld : ∀ d ∈ dirs, t.directories d = s.directories d := by
    intro d hd
    apply h.others
    rintro rfl
    exact absurd (hWalkable.below d hd).2 (Nat.not_lt_of_le hLe)
  have hKeeps : ∀ a, BelowHeap s.primitiveHeap a → BelowHeap t.primitiveHeap a := by
    intro a hOwned
    unfold BelowHeap at hOwned ⊢
    omega
  refine ⟨?_, ?_, ?_, ?_⟩ <;> try rw [List.forall_mem_cons]
  · refine ⟨⟨fun i hi hNull => ?_, fun i hi hne => ?_⟩, fun d hd => ?_⟩
    · by_cases hZero : i = 0
      · subst hZero
        rw [h.tables_zero] at hNull
        rw [h.addresses]
        exact (hWalkable.walked _ hCurrent).null 0 hi hNull
      · rw [h.addresses]
        exact if_neg (by omega)
    · by_cases hZero : i = 0
      · subst hZero
        rw [h.tables_zero] at hne ⊢
        rw [h.addresses]
        exact (hWalkable.walked _ hCurrent).addressed 0 hi hne
      · exact absurd (h.tables_pos hZero) hne
    · exact (hWalkable.walked d hd).congr (hOld d hd)
  · refine ⟨⟨fun i hi j hj hne hEq => ?_, fun i hi hne => ?_⟩, fun d hd => ?_⟩
    · have hi0 : i = 0 := by
        by_contra hPos
        exact hne (h.tables_pos hPos)
      have hj0 : j = 0 := by
        by_contra hPos
        exact hne (hEq.trans (h.tables_pos hPos))
      rw [hi0, hj0]
    · have hi0 : i = 0 := by
        by_contra hPos
        exact hne (h.tables_pos hPos)
      subst hi0
      rw [h.tables_zero] at hne ⊢
      exact hKeeps _ ((hWalkable.wf _ hCurrent).allocated 0 hi hne)
    · exact (hWalkable.wf d hd).congr (congrArg PageDirectory.tables (hOld d hd)) hKeeps
  · rw [h.left, hHeap, hPtr]
    exact ⟨by omega, by omega⟩
  · refine ⟨⟨h.ne_zero, by omega⟩, fun d hd => ?_⟩
    obtain ⟨hne, hLt⟩ := hWalkable.below d hd
    exact ⟨hne, by omega⟩

theorem Separated.newDirectory (h : Separated roots dirs s)
    (hRoom : HeapRoom s.primitiveHeap (framesLeft s + 2)) :
    Separated roots ((allocate 8192 s.primitiveHeap).ptr :: dirs) (newDirectory s) := by
  have hCurrent := h.roots_mem _ h.current
  have hStarted := started_newDirectory h.base (h.below _ hCurrent).2 hRoom
  have hPtr : (allocate 8192 s.primitiveHeap).ptr = (s.primitiveHeap + 4095) / 4096 * 4096 := by
    have hBelow := hRoom.below
    exact congrArg Allocation.ptr (allocate_eq (by omega))
  have hSame := newDirectory_sameRoots s
  generalize (allocate 8192 s.primitiveHeap).ptr = dir at hStarted hPtr ⊢
  generalize hNew : Paging.newDirectory s = t at hStarted hSame ⊢
  have hOld : ∀ d ∈ dirs, t.directories d = s.directories d := by
    intro d hd
    apply hStarted.others
    rintro rfl
    exact absurd (h.below d hd).2 (Nat.not_lt_of_le hStarted.heap_le)
  refine ⟨hStarted.walkable h.toWalkable hCurrent hRoom hPtr, ?_, hSame.base.trans h.base, ?_,
    fun d hd => List.mem_cons_of_mem _ (h.roots_mem d hd), ?_, ?_⟩
  · rw [← hNew, Paging.newDirectory]
    exact h.enabled
  · rw [hSame.current]
    exact h.current
  · rw [hSame.current, hOld _ hCurrent, List.forall_mem_cons]
    refine ⟨⟨?_, hStarted.tables_zero⟩, fun d hd => ?_⟩
    · rw [hStarted.tables_zero]
      exact (h.first _ hCurrent).1
    · rw [hOld d hd]
      exact h.first d hd
  · intro d hd hOut k hk hPos hTable e he j hj hEq
    rcases List.mem_cons.mp hd with rfl | hdOld
    · exact absurd (hStarted.tables_pos hPos) hTable
    · rw [hOld d hdOld] at hTable hEq
      rcases List.mem_cons.mp he with rfl | heOld
      · by_cases hZero : j = 0
        · -- the first table is the current directory's, and that is not shared with `d`
          rw [hZero, hStarted.tables_zero] at hEq
          obtain ⟨hSelf, -⟩ := h.own d hdOld hOut k hk hPos hTable _ hCurrent 0 (by decide) hEq
          exact absurd (hSelf ▸ h.current) hOut
        · rw [hStarted.tables_pos hZero] at hEq
          exact absurd hEq.symm hTable
      · rw [hOld e heOld] at hEq
        exact h.own d hdOld hOut k hk hPos hTable e heOld j hj hEq

/-! ## Booting -/

theorem Walkable.mapRegion (h : Walkable dirs s) {start stop : Nat}
    (hRun : Paging.mapRegion start stop standartAllocator dir s = some (n, t)) :
    Walkable dirs t ∧ s.primitiveHeap ≤ t.primitiveHeap := by
  refine mapLoop_invariant (I := fun u => Walkable dirs u ∧ s.primitiveHeap ≤ u.primitiveHeap)
    (fun u v _ hInv hPage => ?_) hRun ⟨h, Nat.le_refl _⟩
  obtain ⟨hWalkable, hLe, -⟩ := hInv.1.mapPage hPage
  exact ⟨hWalkable, Nat.le_trans hInv.2 hLe⟩

theorem walkable_setUp (h : ImageEnd s) : Walkable [(setUp s).kernelDirectory] (setUp s) := by
  have hAccounted := accounted_setUp h
  have hPos := h.pos
  obtain ⟨-, hKernel, hHeap⟩ := setUp_heap h
  refine ⟨fun d hd => ?_, hAccounted.wf, hAccounted.room, fun d hd => ?_⟩
  · rw [List.mem_singleton.mp hd]
    constructor
    · intro i _ _
      simp only [setUp, Function.update_self, PageDirectory.zero]
    · intro i _ hne
      exact absurd (setUp_tables i) hne
  · rw [List.mem_singleton.mp hd]
    omega

theorem Walkable.setBaseTables (h : Walkable dirs s) (n : Nat) :
    Walkable dirs (Paging.setBaseTables n s) where
  walked d hd := (h.walked d hd).congr rfl
  wf d hd := (h.wf d hd).congr rfl fun _ => id
  room := h.room
  below := h.below

theorem Walkable.enablePaging (h : Walkable [s.kernelDirectory] s)
    (hCurrent : s.pagingCurrentDirectory ≠ 0 ∧ s.pagingCurrentDirectory < s.primitiveHeap) :
    Walkable [s.pagingCurrentDirectory, s.kernelDirectory] (Paging.enablePaging s) := by
  have hMem : s.kernelDirectory ∈ [s.kernelDirectory] := List.mem_singleton_self _
  have hKernel := h.wf _ hMem
  have hWalked := h.walked _ hMem
  refine ⟨fun d hd => ?_, fun d hd => ?_, h.room, ?_⟩
  · have hSame := enablePaging_directories hd
    constructor
    · rw [hSame]
      exact hWalked.null
    · unfold Addressed
      rw [hSame]
      exact hWalked.addressed
  · have hSame := enablePaging_directories hd
    constructor
    · rw [hSame]
      exact hKernel.distinct
    · rw [hSame]
      exact hKernel.allocated
  · rw [List.forall_mem_cons]
    exact ⟨hCurrent, h.below⟩

/-- The directories that `paging::Initialize` leaves. -/
theorem separated_boot {heapMapping : Option (Nat × Nat)} (hEnd : ImageEnd s)
    (hInit : pagingInitialize heapMapping s = some t) :
    Separated (PagingSystem.boot t).dirs (PagingSystem.boot t).dirs t := by
  obtain ⟨u, v, hBoots⟩ := boots hEnd heapMapping
  obtain rfl : enablePaging v = t := Option.some.inj (hBoots.result.symm.trans hInit)
  have hPos := hEnd.pos
  obtain ⟨hCurrent, hKernel, hHeap⟩ := setUp_heap hEnd
  obtain ⟨hImage, hLe⟩ := (walkable_setUp hEnd).mapRegion hBoots.image
  have hMapped : Walkable [(setUp s).kernelDirectory] v := by
    have hBase := hImage.setBaseTables 512
    have hMapHeap := hBoots.heap
    cases heapMapping with
    | none =>
      cases hMapHeap
      exact hBase
    | some m =>
      obtain ⟨⟨n, w⟩, hRun, rfl⟩ := Option.map_eq_some_iff.mp hMapHeap
      exact (hBase.mapRegion hRun).1
  have hSame : v.pagingCurrentDirectory = (setUp s).pagingCurrentDirectory :=
    hBoots.heapRoots.current.trans hBoots.imageRoots.current
  have hAbove := hBoots.heap_le
  rw [← hBoots.kernel] at hMapped
  have hWalkable := hMapped.enablePaging (by omega)
  have hFirst : (v.directories v.kernelDirectory).tables 0 ≠ 0 := by
    intro hNull
    have hPresent := hBoots.lookup_image (by decide : 0 < 512)
    have hDirs := enablePaging_directories (s := v)
      (List.mem_cons_of_mem _ (List.mem_singleton_self _))
    rw [lookup_of_null (by rw [hDirs]; exact hNull)] at hPresent
    cases hPresent
  refine ⟨hWalkable, rfl, ?_, List.mem_cons_self, fun d hd => hd, fun d hd => ?_,
    fun d hd hOut => absurd hd hOut⟩
  · exact hBoots.heapRoots.base
  · have hRoot : (enablePaging v).directories d = v.directories v.kernelDirectory :=
      enablePaging_directories (s := v) hd
    have hCopy : (enablePaging v).directories (enablePaging v).pagingCurrentDirectory =
        v.directories v.kernelDirectory := enablePaging_directories (s := v) List.mem_cons_self
    rw [hRoot, hCopy]
    exact ⟨hFirst, rfl⟩

end Juos.Paging
