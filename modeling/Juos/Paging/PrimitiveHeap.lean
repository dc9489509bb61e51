import Juos.Paging.Exclusive
import Mathlib.Data.Finset.Card

/-!
# What the primitive heap hands out

Directories and tables come from the primitive heap, which only grows and is compared with nothing.
`PagingEvent.regions` lists what a call takes from it, in order. All of it lies inside the identity
map exactly when `Room` holds: when the directory, if one is created, and a page for each table
that the call finds missing fit between the end of the heap and the end of the map.

The loop is followed page by page along `loopPages`. A table is made for the first page of a slot
that has none, so what is made is counted by a set of slots, and each iteration takes at most one
slot out of it.
-/

namespace Juos.Paging

open Machine

/-- `K_MAPPED_REGION` -/
abbrev mappedRegion : Nat := 0x200000

structure Region where
  ptr : Nat
  size : Nat
  deriving DecidableEq, Repr

def Region.Mapped (r : Region) : Prop := r.ptr + r.size ≤ mappedRegion

instance (r : Region) : Decidable r.Mapped := inferInstanceAs (Decidable (_ ≤ _))

variable {A : MemoryAlloctor} {dir start stop top fuel : Nat} {s t u : PagingState}

/-! ## What the calls take -/

/-- A table, when there is none for `top`. -/
def getPageRegions (dir top : Nat) (s : PagingState) : List Region :=
  if (s.directories dir).tables (top / 4096 / 1024) = 0 then
    [⟨(standartAllocator 4096 s.primitiveHeap).ptr, 4096⟩]
  else []

/-- The table is made before the missing frame is noticed, so the iteration that panics counts. -/
def mapLoopRegions (dir stop : Nat) : Nat → Nat → PagingState → List Region
  | 0, _, _ => []
  | fuel + 1, top, s =>
    if top < stop then
      getPageRegions dir top s ++
        match mapPage standartAllocator dir top s with
        | some t => mapLoopRegions dir stop fuel ((top + 4096) % 4294967296) t
        | none => []
    else []

def mapRegionRegions (start stop dir : Nat) (s : PagingState) : List Region :=
  mapLoopRegions (target dir s) stop (s.frameTable.length + 1) start s

def mappingRegions (dir : Nat) : List (Nat × Nat) → PagingState → List Region
  | [], _ => []
  | mapping :: mappings, s =>
    mapRegionRegions mapping.1 mapping.2 dir s ++
      match mapRegion mapping.1 mapping.2 standartAllocator dir s with
      | some (_, t) => mappingRegions dir mappings t
      | none => []

def createDirectoryRegions (procMappings : List (Nat × Nat)) (s : PagingState) : List Region :=
  let dir := (allocate 8192 s.primitiveHeap).ptr
  ⟨dir, 8192⟩ :: mappingRegions dir procMappings (newDirectory s)

def pageFaultRegions (errCode faultingAddress : Nat) (directory : Option Nat) (s : PagingState) :
    List Region :=
  match directory with
  | some dir =>
    if errCode % 2 = 0 then
      let baseFault := faultingAddress - faultingAddress % 4096
      mapRegionRegions baseFault ((baseFault + 4096) % 4294967296) dir s
    else []
  | none => []

/-- The regions that a call takes from the primitive heap. -/
def PagingEvent.regions (s : PagingState) : PagingEvent → List Region
  | .mapRegion start stop dir => mapRegionRegions start stop dir s
  | .createDirectory procMappings => createDirectoryRegions procMappings s
  | .pageFault errCode addr directory => pageFaultRegions errCode addr directory s

/-- What is handed out is mapped, and the heap does not grow past the map. -/
structure HeapMapped (s : PagingSystem) (e : PagingEvent) : Prop where
  inside : ∀ r ∈ e.regions s.paging, r.Mapped
  grows : ∀ t, PagingStep s e t → t.paging.primitiveHeap ≤ max s.paging.primitiveHeap mappedRegion

/-! ## What the calls need -/

/-- The pages that the loop comes to if no frame is missing. -/
def loopPages (stop : Nat) : Nat → Nat → List Nat
  | 0, _ => []
  | fuel + 1, top =>
    if top < stop then top :: loopPages stop fuel ((top + 4096) % 4294967296) else []

/-- The pages of several regions, with a frame table of length `n`. -/
def mappingPages (n : Nat) (mappings : List (Nat × Nat)) : List Nat :=
  mappings.flatMap fun mapping => loopPages mapping.2 (n + 1) mapping.1

/-- The pages that a call comes to if no frame is missing. -/
def PagingEvent.tops (s : PagingState) : PagingEvent → List Nat
  | .mapRegion start stop _ => loopPages stop (s.frameTable.length + 1) start
  | .createDirectory procMappings => mappingPages s.frameTable.length procMappings
  | .pageFault errCode addr directory =>
    if errCode % 2 = 0 ∧ directory.isSome then
      loopPages ((addr - addr % 4096 + 4096) % 4294967296) (s.frameTable.length + 1)
        (addr - addr % 4096)
    else []

/-- The tables that a call finds: a new directory has the first tables of the current one. -/
def PagingEvent.tables (s : PagingState) : PagingEvent → Nat → Nat
  | .mapRegion _ _ dir => (s.directories (target dir s)).tables
  | .createDirectory _ => fun i =>
    if i < s.baseKernelTablesSize then (s.directories s.pagingCurrentDirectory).tables i else 0
  | .pageFault _ _ directory => (s.directories (target (directory.getD 0) s)).tables

def framesLeft (s : PagingState) : Nat := freeCount s.frameTable.isTaken s.frameTable.length

/-- The number of tables that are missing for the pages `tops`. -/
def missing (tables : Nat → Nat) (tops : List Nat) : Nat :=
  ((tops.map fun top => top / 4096 / 1024).toFinset.filter fun i => tables i = 0).card

/-- The bytes for a directory of its own. -/
def PagingEvent.directorySize : PagingEvent → Nat
  | .mapRegion _ _ _ => 0
  | .createDirectory _ => 8192
  | .pageFault _ _ _ => 0

/-- The bytes that a call takes. It comes to one page more than it finds frames for. -/
def PagingEvent.asked (s : PagingState) (e : PagingEvent) : Nat :=
  e.directorySize + 4096 * missing (e.tables s) ((e.tops s).take (framesLeft s + 1))

def Fits (heap n : Nat) : Prop := n = 0 ∨ (heap + 4095) / 4096 * 4096 + n ≤ mappedRegion

def Room (s : PagingSystem) (e : PagingEvent) : Prop :=
  Fits s.paging.primitiveHeap (e.asked s.paging)

/-! ## Missing tables -/

@[simp] theorem missing_nil (tables : Nat → Nat) : missing tables [] = 0 := rfl

@[simp] theorem fits_zero (heap : Nat) : Fits heap 0 := Or.inl rfl

theorem missing_cons_of_table {tables : Nat → Nat} (tops : List Nat)
    (h : tables (top / 4096 / 1024) ≠ 0) :
    missing tables (top :: tops) = missing tables tops := by
  unfold missing
  rw [List.map_cons, List.toFinset_cons, Finset.filter_insert, if_neg h]

/-- Pages of few slots miss few tables. -/
theorem missing_le {tables : Nat → Nat} {tops : List Nat} {slots : Finset Nat}
    (h : ∀ top ∈ tops, top / 4096 / 1024 ∈ slots) : missing tables tops ≤ slots.card := by
  refine Finset.card_le_card ((Finset.filter_subset _ _).trans fun i hi => ?_)
  obtain ⟨top, hTop, rfl⟩ := List.mem_map.mp (List.mem_toFinset.mp hi)
  exact h top hTop

/-- When a missing table is made, there is one less. -/
theorem missing_cons_of_missing {tables : Nat → Nat} {a : Nat} (tops : List Nat)
    (h : tables (top / 4096 / 1024) = 0) (ha : a ≠ 0) :
    missing tables (top :: tops) =
      missing (Function.update tables (top / 4096 / 1024) a) tops + 1 := by
  unfold missing
  rw [List.map_cons, List.toFinset_cons]
  generalize top / 4096 / 1024 = i at h ⊢
  generalize (tops.map fun top => top / 4096 / 1024).toFinset = slots
  have hSlots : (insert i slots).filter (fun j => tables j = 0) =
      insert i (slots.filter fun j => Function.update tables i a j = 0) := by
    ext j
    rw [Finset.mem_filter, Finset.mem_insert, Finset.mem_insert, Finset.mem_filter]
    by_cases hj : j = i
    · subst hj
      simp only [true_or, h, and_self]
    · simp only [hj, false_or, Function.update_of_ne hj]
  rw [hSlots, Finset.card_insert_of_notMem]
  intro hMem
  have hNull := (Finset.mem_filter.mp hMem).2
  rw [Function.update_self] at hNull
  exact ha hNull

/-! ## Page by page -/

/-- What an iteration for each of the pages takes. -/
def pageRegions (dir : Nat) : List Nat → PagingState → List Region
  | [], _ => []
  | top :: tops, s =>
    getPageRegions dir top s ++
      match mapPage standartAllocator dir top s with
      | some t => pageRegions dir tops t
      | none => []

def mapPages (dir : Nat) (tops : List Nat) (s : PagingState) : Option PagingState :=
  tops.foldlM (fun s top => mapPage standartAllocator dir top s) s

theorem mapLoopRegions_eq :
    mapLoopRegions dir stop fuel top s = pageRegions dir (loopPages stop fuel top) s := by
  induction fuel generalizing top s with
  | zero => rfl
  | succ fuel ih =>
    rw [mapLoopRegions, loopPages]
    by_cases hTop : top < stop
    · rw [if_pos hTop, if_pos hTop, pageRegions]
      cases mapPage standartAllocator dir top s with
      | none => rfl
      | some t => exact congrArg (getPageRegions dir top s ++ ·) ih
    · rw [if_neg hTop, if_neg hTop]
      rfl

theorem mapLoop_eq (hFuel : framesLeft s < fuel) :
    (mapLoop standartAllocator dir stop fuel top s).map Prod.snd =
      mapPages dir (loopPages stop fuel top) s := by
  induction fuel generalizing top s with
  | zero => omega
  | succ fuel ih =>
    rw [mapLoop, loopPages]
    by_cases hTop : top < stop
    · rw [if_pos hTop, if_pos hTop, mapPages, List.foldlM_cons]
      cases hPage : mapPage standartAllocator dir top s with
      | none => rfl
      | some t =>
        have hLess : framesLeft t + 1 = framesLeft s := freeCount_mapPage hPage
        rw [Option.bind_some, Option.map_map]
        exact ih (by omega)
    · rw [if_neg hTop, if_neg hTop]
      rfl

theorem mapRegion_eq (start stop dir : Nat) (s : PagingState) :
    (mapRegion start stop standartAllocator dir s).map Prod.snd =
      mapPages (target dir s) (loopPages stop (s.frameTable.length + 1) start) s :=
  mapLoop_eq (Nat.lt_succ_of_le freeCount_le)

theorem loopPages_one {a n : Nat} (h : a + 4096 < 4294967296) :
    loopPages (a + 4096) (n + 1) a = [a] := by
  rw [loopPages, if_pos (by omega), Nat.mod_eq_of_lt h]
  cases n with
  | zero => rfl
  | succ n => rw [loopPages, if_neg (by omega)]

theorem pageRegions_append (tops tops' : List Nat) :
    pageRegions dir (tops ++ tops') s = pageRegions dir tops s ++
      match mapPages dir tops s with
      | some t => pageRegions dir tops' t
      | none => [] := by
  induction tops generalizing s with
  | nil => rfl
  | cons top tops ih =>
    rw [List.cons_append, pageRegions, pageRegions, List.append_assoc, mapPages,
      List.foldlM_cons]
    cases mapPage standartAllocator dir top s with
    | none => rfl
    | some t => exact congrArg (getPageRegions dir top s ++ ·) ih

theorem mapPages_append (tops tops' : List Nat) :
    mapPages dir (tops ++ tops') s = (mapPages dir tops s).bind (mapPages dir tops') := by
  rw [mapPages, List.foldlM_append]
  rfl

theorem framesLeft_of_panic (h : mapPage A dir top s = none) : framesLeft s = 0 := by
  by_contra hLeft
  obtain ⟨t, hPage, -⟩ := mapPage_isSome (n := 0) (A := A) (s := s) (Nat.pos_of_ne_zero hLeft)
  rw [h] at hPage
  cases hPage

theorem mapPages_frameTable {tops : List Nat} (h : mapPages dir tops s = some t) :
    t.frameTable.length = s.frameTable.length :=
  foldlM_invariant (I := fun u => u.frameTable.length = s.frameTable.length)
    (fun _ _ _ _ hu hPage => (mapPage_sameRoots hPage).length_eq.trans hu) h rfl

/-- The mappings of a new directory, one page after another. -/
theorem mappings_eq (hDir : dir ≠ 0) (mappings : List (Nat × Nat)) :
    mappings.foldlM (fun s mapping =>
      (mapRegion mapping.1 mapping.2 standartAllocator dir s).map Prod.snd) s =
        mapPages dir (mappingPages s.frameTable.length mappings) s := by
  induction mappings generalizing s with
  | nil => rfl
  | cons mapping mappings ih =>
    have hTarget : target dir s = dir := if_neg hDir
    rw [List.foldlM_cons, mapRegion_eq, hTarget, mappingPages, List.flatMap_cons, mapPages_append]
    cases hPages : mapPages dir (loopPages mapping.2 (s.frameTable.length + 1) mapping.1) s with
    | none => rfl
    | some t =>
      have hRest := ih (s := t)
      rw [mapPages_frameTable hPages] at hRest
      exact hRest

theorem mappingRegions_eq (hDir : dir ≠ 0) (mappings : List (Nat × Nat)) :
    mappingRegions dir mappings s =
      pageRegions dir (mappingPages s.frameTable.length mappings) s := by
  induction mappings generalizing s with
  | nil => rfl
  | cons mapping mappings ih =>
    have hTarget : target dir s = dir := if_neg hDir
    have hPages : (mapRegion mapping.1 mapping.2 standartAllocator dir s).map Prod.snd =
        mapPages dir (loopPages mapping.2 (s.frameTable.length + 1) mapping.1) s := by
      rw [mapRegion_eq, hTarget]
    rw [mappingRegions, mappingPages, List.flatMap_cons, pageRegions_append, mapRegionRegions,
      mapLoopRegions_eq, hTarget]
    cases hRun : mapRegion mapping.1 mapping.2 standartAllocator dir s with
    | none =>
      rw [hRun] at hPages
      rw [← hPages]
      rfl
    | some r =>
      rw [hRun] at hPages
      rw [← hPages]
      have hRest := ih (s := r.2)
      rw [mapPages_frameTable hPages.symm] at hRest
      exact congrArg (pageRegions dir _ s ++ ·) hRest

/-! ## The regions fit -/

theorem heapRoom_of_mapped {heap n : Nat} (hPos : 0 < heap) (hMapped : heap ≤ mappedRegion)
    (hn : n < 1048000) : HeapRoom heap n := by
  unfold mappedRegion at hMapped
  exact ⟨hPos, by omega⟩

theorem mapPage_old (hTable : (s.directories dir).tables (top / 4096 / 1024) ≠ 0)
    (hPage : mapPage A dir top s = some t) :
    t.primitiveHeap = s.primitiveHeap ∧ t.directories = s.directories := by
  obtain ⟨idx, -, ⟨-, rfl⟩ | ⟨hMissing, -⟩⟩ := mapPage_cases hPage
  · exact ⟨rfl, rfl⟩
  · exact absurd hMissing hTable

/-- A new table is put at the next page of the heap. -/
theorem mapPage_new (h : HeapRoom s.primitiveHeap 1)
    (hMissing : (s.directories dir).tables (top / 4096 / 1024) = 0)
    (hPage : mapPage standartAllocator dir top s = some t) :
    t.primitiveHeap = (s.primitiveHeap + 4095) / 4096 * 4096 + 4096 ∧
      (t.directories dir).tables = Function.update (s.directories dir).tables (top / 4096 / 1024)
        ((s.primitiveHeap + 4095) / 4096 * 4096) := by
  obtain ⟨idx, -, ⟨hTable, -⟩ | ⟨-, rfl⟩⟩ := mapPage_cases hPage
  · exact absurd hMissing hTable
  · rw [standartAllocator_eq h, writePage_primitiveHeap, newTable_primitiveHeap,
      writePage_directories]
    simp only [newTable, Function.update_self, and_self]

/-- The heap grows inside the map, or not at all. -/
structure Grown (s t : PagingState) : Prop where
  le : s.primitiveHeap ≤ t.primitiveHeap
  end_le : t.primitiveHeap = s.primitiveHeap ∨ t.primitiveHeap ≤ mappedRegion

theorem Grown.trans (h : Grown s t) (h' : Grown t u) : Grown s u := by
  refine ⟨Nat.le_trans h.le h'.le, ?_⟩
  rcases h'.end_le with hSame | hMapped
  · rw [hSame]
    exact h.end_le
  · exact Or.inr hMapped

theorem Grown.room {n : Nat} (h : Grown s t) (hRoom : HeapRoom s.primitiveHeap n)
    (hn : n < 1048000) : HeapRoom t.primitiveHeap n := by
  have hPos := hRoom.pos
  have hLe := h.le
  rcases h.end_le with hSame | hMapped
  · rw [hSame]
    exact hRoom
  · exact heapRoom_of_mapped (Nat.lt_of_lt_of_le hPos hLe) hMapped hn

theorem grown_mapPage (h : HeapRoom s.primitiveHeap 1)
    (hInside : ∀ r ∈ getPageRegions dir top s, r.Mapped)
    (hPage : mapPage standartAllocator dir top s = some t) : Grown s t := by
  by_cases hMissing : (s.directories dir).tables (top / 4096 / 1024) = 0
  · rw [getPageRegions, if_pos hMissing, standartAllocator_eq h] at hInside
    have hMapped := hInside _ (List.mem_singleton_self _)
    have hHeap := (mapPage_new h hMissing hPage).1
    exact ⟨by omega, Or.inr (hHeap ▸ hMapped)⟩
  · have hHeap := (mapPage_old hMissing hPage).1
    exact ⟨hHeap.ge, Or.inl hHeap⟩

theorem grown_mapPages {tops : List Nat} (h : HeapRoom s.primitiveHeap 1)
    (hInside : ∀ r ∈ pageRegions dir tops s, r.Mapped)
    (hPages : mapPages dir tops s = some t) : Grown s t := by
  induction tops generalizing s with
  | nil =>
    cases hPages
    exact ⟨Nat.le_refl _, Or.inl rfl⟩
  | cons top tops ih =>
    rw [mapPages, List.foldlM_cons] at hPages
    obtain ⟨u, hPage, hRest⟩ := Option.bind_eq_some_iff.mp hPages
    rw [pageRegions, hPage] at hInside
    have hOne : Grown s u :=
      grown_mapPage h (fun r hr => hInside r (List.mem_append_left _ hr)) hPage
    exact hOne.trans (ih (hOne.room h (by decide))
      (fun r hr => hInside r (List.mem_append_right _ hr)) hRest)

theorem getPageRegions_iff (h : HeapRoom s.primitiveHeap 1) :
    (∀ r ∈ getPageRegions dir top s, r.Mapped) ↔
      Fits s.primitiveHeap (4096 * missing (s.directories dir).tables [top]) := by
  unfold getPageRegions
  by_cases hTable : (s.directories dir).tables (top / 4096 / 1024) = 0
  · rw [if_pos hTable, missing_cons_of_missing [] hTable one_ne_zero, missing_nil,
      List.forall_mem_singleton, standartAllocator_eq h]
    unfold Fits Region.Mapped
    simp only
    omega
  · rw [if_neg hTable, missing_cons_of_table [] hTable]
    simp

/-- What the loop takes for `tops` fits exactly when the tables that are missing do. -/
theorem pageRegions_iff (tops : List Nat) (h : HeapRoom s.primitiveHeap 1) :
    (∀ r ∈ pageRegions dir tops s, r.Mapped) ↔ Fits s.primitiveHeap
      (4096 * missing (s.directories dir).tables (tops.take (framesLeft s + 1))) := by
  induction tops generalizing s with
  | nil => simp [pageRegions]
  | cons top tops ih =>
    rw [pageRegions, List.forall_mem_append, List.take_succ_cons]
    cases hPage : mapPage standartAllocator dir top s with
    | none =>
      rw [framesLeft_of_panic hPage, List.take_zero, getPageRegions_iff h]
      simp
    | some t =>
      have hLess : framesLeft t + 1 = framesLeft s := freeCount_mapPage hPage
      rw [← hLess]
      by_cases hMissing : (s.directories dir).tables (top / 4096 / 1024) = 0
      · obtain ⟨hHeap, hTables⟩ := mapPage_new h hMissing hPage
        have hPos := h.pos
        have hAligned : (s.primitiveHeap + 4095) / 4096 * 4096 ≠ 0 := by omega
        rw [getPageRegions, if_pos hMissing, List.forall_mem_singleton,
          missing_cons_of_missing _ hMissing hAligned, standartAllocator_eq h, ← hTables]
        unfold Fits Region.Mapped at ih ⊢
        simp only
        -- behind the end of the map nothing is said about the rest, nor does it matter
        by_cases hMapped : t.primitiveHeap ≤ mappedRegion
        · rw [ih (heapRoom_of_mapped (by omega) hMapped (by decide)), hHeap]
          omega
        · omega
      · obtain ⟨hHeap, hDirectories⟩ := mapPage_old hMissing hPage
        have hRest := ih (s := t) (hHeap ▸ h)
        rw [hHeap, hDirectories] at hRest
        rw [missing_cons_of_table _ hMissing, getPageRegions, if_neg hMissing, ← hRest]
        simp

/-! ## The calls -/

/-- What every call needs: there are two pages for a directory before the end of the address space,
and the current directory is not the one that comes next. -/
structure HeapInv (s : PagingState) : Prop where
  room : HeapRoom s.primitiveHeap 2
  current_lt : s.pagingCurrentDirectory < s.primitiveHeap

theorem HeapInv.grown (h : HeapInv s) (hGrown : Grown s t) (hSame : SameRoots s t) :
    HeapInv t := by
  refine ⟨hGrown.room h.room (by decide), ?_⟩
  rw [hSame.current]
  exact Nat.lt_of_lt_of_le h.current_lt hGrown.le

theorem mapRegionRegions_iff (h : HeapInv s) :
    (∀ r ∈ mapRegionRegions start stop dir s, r.Mapped) ↔ Fits s.primitiveHeap
      (4096 * missing (s.directories (target dir s)).tables
        ((loopPages stop (s.frameTable.length + 1) start).take (framesLeft s + 1))) := by
  rw [mapRegionRegions, mapLoopRegions_eq]
  exact pageRegions_iff _ (h.room.mono (by decide))

theorem grown_mapRegion {n : Nat} (h : HeapInv s)
    (hInside : ∀ r ∈ mapRegionRegions start stop dir s, r.Mapped)
    (hRun : mapRegion start stop standartAllocator dir s = some (n, t)) : Grown s t := by
  have hPages := mapRegion_eq start stop dir s
  rw [hRun] at hPages
  rw [mapRegionRegions, mapLoopRegions_eq] at hInside
  exact grown_mapPages (h.room.mono (by decide)) hInside hPages.symm

/-- Where a new directory is put. -/
structure NewDirectory (s : PagingState) (dir : Nat) : Prop where
  address : (allocate 8192 s.primitiveHeap).ptr = dir
  ne_zero : dir ≠ 0
  heap : (newDirectory s).primitiveHeap = dir + 8192
  tables : ((newDirectory s).directories dir).tables = fun i =>
    if i < s.baseKernelTablesSize then (s.directories s.pagingCurrentDirectory).tables i else 0

theorem newDirectory_spec (h : HeapInv s) :
    NewDirectory s ((s.primitiveHeap + 4095) / 4096 * 4096) := by
  have hBelow := h.room.below
  have hCurrent := h.current_lt
  have hEq : allocate 8192 s.primitiveHeap = _ := allocate_eq (by omega)
  refine ⟨congrArg Allocation.ptr hEq, by omega, ?_, ?_⟩
  · simp only [newDirectory, hEq]
  · have hTables := newDirectory_tables s
    rw [hEq] at hTables
    funext i
    rw [hTables]
    have hne : s.pagingCurrentDirectory ≠ (s.primitiveHeap + 4095) / 4096 * 4096 := by omega
    simp only [hne, ne_eq, not_false_eq_true, and_true]

theorem createDirectoryRegions_iff (h : HeapInv s) (mappings : List (Nat × Nat)) :
    (∀ r ∈ createDirectoryRegions mappings s, r.Mapped) ↔
      Fits s.primitiveHeap (PagingEvent.asked s (.createDirectory mappings)) := by
  have hNew := newDirectory_spec h
  generalize hDir : (s.primitiveHeap + 4095) / 4096 * 4096 = dir at hNew
  rw [createDirectoryRegions, hNew.address, mappingRegions_eq hNew.ne_zero, List.forall_mem_cons,
    newDirectory_frameTable]
  by_cases hMapped : dir + 8192 ≤ mappedRegion
  · have hRoom : HeapRoom (newDirectory s).primitiveHeap 1 := by
      rw [hNew.heap]
      exact heapRoom_of_mapped (by omega) hMapped (by decide)
    have hLeft : framesLeft (newDirectory s) = framesLeft s := by
      rw [framesLeft, newDirectory_frameTable, framesLeft]
    rw [pageRegions_iff _ hRoom, hNew.heap, hNew.tables, hLeft]
    unfold Fits PagingEvent.asked Region.Mapped
    simp only [PagingEvent.directorySize, PagingEvent.tables, PagingEvent.tops]
    omega
  · unfold Fits PagingEvent.asked Region.Mapped
    simp only [PagingEvent.directorySize]
    omega

/-- The whole of what a call takes is mapped exactly when it fits. -/
theorem regions_iff (h : HeapInv s) (e : PagingEvent) :
    (∀ r ∈ e.regions s, r.Mapped) ↔ Fits s.primitiveHeap (e.asked s) := by
  cases e with
  | mapRegion start stop dir =>
    rw [PagingEvent.asked, PagingEvent.directorySize, Nat.zero_add]
    exact mapRegionRegions_iff h
  | createDirectory mappings => exact createDirectoryRegions_iff h mappings
  | pageFault errCode addr directory =>
    rw [PagingEvent.asked, PagingEvent.directorySize, Nat.zero_add]
    cases directory with
    | none => simp [PagingEvent.regions, pageFaultRegions, PagingEvent.tops]
    | some dir =>
      by_cases hCode : errCode % 2 = 0
      · simp only [PagingEvent.regions, pageFaultRegions, PagingEvent.tops, hCode, if_true,
          Option.isSome_some, and_self]
        exact mapRegionRegions_iff h
      · simp [PagingEvent.regions, pageFaultRegions, PagingEvent.tops, hCode]

theorem grown_createDirectory {mappings : List (Nat × Nat)} (h : HeapInv s)
    (hInside : ∀ r ∈ createDirectoryRegions mappings s, r.Mapped)
    (hRun : createDirectory mappings s = some (dir, t)) : Grown s t := by
  have hNew := newDirectory_spec h
  generalize hDir : (s.primitiveHeap + 4095) / 4096 * 4096 = d at hNew
  rw [createDirectoryRegions, hNew.address, mappingRegions_eq hNew.ne_zero,
    List.forall_mem_cons] at hInside
  obtain ⟨hFirst, hRest⟩ := hInside
  unfold Region.Mapped at hFirst
  simp only at hFirst
  have hOne : Grown s (newDirectory s) := by
    constructor
    · rw [hNew.heap]
      omega
    · rw [hNew.heap]
      exact Or.inr hFirst
  obtain ⟨u, hFold, hEq⟩ := Option.map_eq_some_iff.mp hRun
  cases hEq
  rw [hNew.address, mappings_eq hNew.ne_zero] at hFold
  have hRoom := hOne.room (h.room.mono (by decide : 1 ≤ 2)) (by decide)
  exact hOne.trans (grown_mapPages hRoom hRest hFold)

theorem grown_step {s t : PagingSystem} {e : PagingEvent} (h : HeapInv s.paging)
    (hInside : ∀ r ∈ e.regions s.paging, r.Mapped) (hStep : PagingStep s e t) :
    Grown s.paging t.paging ∧ SameRoots s.paging t.paging := by
  cases hStep with
  | mapRegion _ _ _ hRun => exact ⟨grown_mapRegion h hInside hRun, mapRegion_sameRoots hRun⟩
  | createDirectory _ hRun =>
    exact ⟨grown_createDirectory h hInside hRun, createDirectory_sameRoots hRun⟩
  | @pageFault errCode addr directory t _ _ hFault =>
    obtain ⟨d, n, rfl, hRun⟩ := pageFault_cases hFault
    have hCode : errCode % 2 = 0 := by
      by_contra hCode
      rw [pageFaultHandler, if_neg hCode] at hFault
      cases hFault
    simp only [PagingEvent.regions, pageFaultRegions, if_pos hCode] at hInside
    exact ⟨grown_mapRegion h hInside hRun, mapRegion_sameRoots hRun⟩

/-- A call keeps to the map exactly when there is room for what it asks. -/
theorem heapMapped_iff {s : PagingSystem} {e : PagingEvent} (h : HeapInv s.paging) :
    HeapMapped s e ↔ Room s e := by
  constructor
  · intro hMapped
    exact (regions_iff h e).mp hMapped.inside
  · intro hRoom
    have hInside := (regions_iff h e).mpr hRoom
    refine ⟨hInside, fun t hStep => ?_⟩
    rcases (grown_step h hInside hStep).1.end_le with hSame | hMapped
    · exact Nat.le_trans (Nat.le_of_eq hSame) (Nat.le_max_left _ _)
    · exact Nat.le_trans hMapped (Nat.le_max_right _ _)

/-! ## Runs -/

theorem Boots.heapInv {heapMapping : Option (Nat × Nat)} (h : Boots heapMapping s u t)
    (hEnd : ImageEnd s) : HeapInv (enablePaging t) := by
  obtain ⟨hCurrent, -, hHeap⟩ := setUp_heap hEnd
  have hGrown := h.heap_le
  have hSame : t.pagingCurrentDirectory = (setUp s).pagingCurrentDirectory :=
    h.heapRoots.current.trans h.imageRoots.current
  refine ⟨h.room.mono (by decide), ?_⟩
  change t.pagingCurrentDirectory < t.primitiveHeap
  omega

/-- After booting, all that is handed out is mapped as long as every call finds room. -/
theorem heapMapped_throughout_iff {heapMapping : Option (Nat × Nat)} {es : List PagingEvent}
    {s₀ : PagingState} (hEnd : ImageEnd s₀) (hInit : pagingInitialize heapMapping s₀ = some s) :
    Throughout PagingStep HeapMapped (.boot s) es ↔ Throughout PagingStep Room (.boot s) es := by
  obtain ⟨u, v, hBoots⟩ := boots hEnd heapMapping
  obtain rfl : enablePaging v = s := Option.some.inj (hBoots.result.symm.trans hInit)
  apply Throughout.iff (I := fun t => HeapInv t.paging)
  · exact hBoots.heapInv hEnd
  · intro t e hInv
    exact heapMapped_iff hInv
  · intro t e t' hInv hRoom hStep
    obtain ⟨hGrown, hSame⟩ := grown_step hInv ((regions_iff hInv e).mpr hRoom) hStep
    exact hInv.grown hGrown hSame

/-- A page of the image is mapped again, which takes nothing. -/
theorem heapMapped_throughout_image :
    ∃ s, pagingInitialize (some (0xC0000000, 0xC1000000)) kernelImage = some s ∧
      Throughout PagingStep HeapMapped (.boot s) [.mapRegion 0x5000 0x6000 s.kernelDirectory] := by
  obtain ⟨u, v, hBoots⟩ := boots imageEnd_kernelImage (some (0xC0000000, 0xC1000000))
  have hTable : ((enablePaging v).directories v.kernelDirectory).tables 0 ≠ 0 := by
    intro hNull
    have hPresent := hBoots.lookup_image (by decide : 5 < 512)
    rw [lookup_of_null hNull] at hPresent
    cases hPresent
  have hDir := hBoots.kernel_ne_zero imageEnd_kernelImage
  have hAsked : PagingEvent.asked (enablePaging v)
      (.mapRegion 0x5000 0x6000 v.kernelDirectory) = 0 := by
    have hTops : loopPages 0x6000 ((enablePaging v).frameTable.length + 1) 0x5000 = [0x5000] :=
      loopPages_one (by decide)
    rw [PagingEvent.asked, PagingEvent.tops, PagingEvent.tables, target, if_neg hDir, hTops,
      List.take_succ_cons, List.take_nil, missing_cons_of_table [] hTable, missing_nil]
    rfl
  refine ⟨_, hBoots.result, (heapMapped_throughout_iff imageEnd_kernelImage hBoots.result).mpr ?_⟩
  exact Throughout.singleton_iff.mpr (Or.inl hAsked)

/-! ## A table for each slot -/

theorem mem_loopPages (hStop : stop + 4096 ≤ 4294967296) (h : top ∈ loopPages stop fuel start) :
    start ≤ top ∧ top < stop := by
  induction fuel generalizing start with
  | zero => cases h
  | succ fuel ih =>
    rw [loopPages] at h
    split at h
    case isTrue hLt =>
      rcases List.mem_cons.mp h with rfl | hRest
      · exact ⟨Nat.le_refl _, hLt⟩
      · have hLater := ih hRest
        omega
    case isFalse => cases h

theorem tables_mapPages {tops : List Nat} {d i : Nat}
    (hOther : ∀ top ∈ tops, top / 4096 / 1024 ≠ i) (h : mapPages dir tops s = some t) :
    (t.directories d).tables i = (s.directories d).tables i := by
  refine foldlM_invariant (I := fun u => (u.directories d).tables i = (s.directories d).tables i)
    (fun u top v hTop hu hPage => ?_) h rfl
  refine Eq.trans ?_ hu
  obtain ⟨idx, -, ⟨-, rfl⟩ | ⟨-, rfl⟩⟩ := mapPage_cases hPage
  · rfl
  · rw [writePage_directories]
    by_cases hd : d = dir
    · subst hd
      exact newTable_tables_of_ne (hOther top hTop).symm
    · rw [newTable_of_ne hd]

theorem tables_mapRegion_outside {n d i : Nat}
    (h : mapRegion start stop standartAllocator dir s = some (n, t))
    (hStop : stop + 4096 ≤ 4294967296)
    (hOther : ∀ top, start ≤ top → top < stop → top / 4096 / 1024 ≠ i) :
    (t.directories d).tables i = (s.directories d).tables i := by
  have hPages := mapRegion_eq start stop dir s
  rw [h] at hPages
  refine tables_mapPages (fun top hTop => ?_) hPages.symm
  have hBounds := mem_loopPages hStop hTop
  exact hOther top hBounds.1 hBounds.2

/-- The kernel has no tables between its image and its heap. -/
theorem Boots.tables_gap {heapMapping : Option (Nat × Nat)} (h : Boots heapMapping s u t)
    {i : Nat} (hi : 0 < i) (hi' : i < 768) :
    ((enablePaging t).directories t.kernelDirectory).tables i = 0 := by
  have hDirs := enablePaging_directories (s := t)
    (List.mem_cons_of_mem _ (List.mem_singleton_self _))
  have hImage : (u.directories t.kernelDirectory).tables i = 0 := by
    rw [tables_mapRegion_outside h.image (by decide) (fun top _ _ => by omega), h.kernel]
    exact setUp_tables i
  rw [hDirs, ← hImage]
  have hHeap := h.heap
  cases heapMapping with
  | none =>
    cases hHeap
    rfl
  | some m =>
    obtain ⟨⟨n, v⟩, hRun, rfl⟩ := Option.map_eq_some_iff.mp hHeap
    have hSame : (v.directories v.kernelDirectory).tables i =
        ((setBaseTables 512 u).directories v.kernelDirectory).tables i :=
      tables_mapRegion_outside hRun (by decide) fun top _ _ => by omega
    exact hSame

/-- A fault is one iteration. -/
theorem pageFault_eq {a d : Nat} (hDir : d ≠ 0) (ha : a % 4096 = 0) (hLt : a + 4096 < 4294967296) :
    pageFaultHandler 0 a (some d) s = mapPage standartAllocator d a s := by
  have hTarget : target d s = d := if_neg hDir
  simp only [pageFaultHandler, Nat.zero_mod, if_true, ha, Nat.sub_zero, Nat.mod_eq_of_lt hLt]
  rw [mapRegion_eq, loopPages_one hLt, hTarget, mapPages, List.foldlM_cons]
  cases mapPage standartAllocator d a s with
  | none => rfl
  | some t => rfl

theorem pageFaultRegions_eq {a d : Nat} (hDir : d ≠ 0) (ha : a % 4096 = 0)
    (hLt : a + 4096 < 4294967296) : pageFaultRegions 0 a (some d) s = getPageRegions d a s := by
  have hTarget : target d s = d := if_neg hDir
  simp only [pageFaultRegions, Nat.zero_mod, if_true, ha, Nat.sub_zero, Nat.mod_eq_of_lt hLt]
  rw [mapRegionRegions, mapLoopRegions_eq, loopPages_one hLt, hTarget, pageRegions]
  cases mapPage standartAllocator d a s <;> exact List.append_nil _

/-- The region of a fault that makes a table. -/
theorem getPageRegions_missing (hMissing : (s.directories dir).tables (top / 4096 / 1024) = 0)
    (h : HeapRoom s.primitiveHeap 1) :
    getPageRegions dir top s = [⟨(s.primitiveHeap + 4095) / 4096 * 4096, 4096⟩] := by
  rw [getPageRegions, if_pos hMissing, standartAllocator_eq h]

/-- The process of `d` touches the first page of one slot after another, from slot 1. -/
def faults (d n : Nat) : List PagingEvent :=
  (List.range n).map fun i => .pageFault 0 (0x400000 * (i + 1)) (some d)

/-- The state after `n` of these faults, when there were `k` frames and as much room. -/
structure Touched (d k : Nat) (s t : PagingState) (n : Nat) : Prop where
  heap : (t.primitiveHeap + 4095) / 4096 = (s.primitiveHeap + 4095) / 4096 + n
  room : HeapRoom t.primitiveHeap (k - n)
  frames : k ≤ framesLeft t + n
  missing : ∀ i, n < i → i < 768 → (t.directories d).tables i = 0

theorem touched_succ {d k n : Nat} (hDir : d ≠ 0) (hn : n < 767) (hk : n < k)
    (h : Touched d k s t n) :
    ∃ u, pageFaultHandler 0 (0x400000 * (n + 1)) (some d) t = some u ∧
      Touched d k s u (n + 1) := by
  have hFrames := h.frames
  have hHeap := h.heap
  have hBelow := h.room.below
  have hSlot : 0x400000 * (n + 1) / 4096 / 1024 = n + 1 := by omega
  have hMissing := h.missing (n + 1) (by omega) (by omega)
  rw [← hSlot] at hMissing
  have hSome : 0 + 1 ≤ freeCount t.frameTable.isTaken t.frameTable.length := by
    unfold framesLeft at hFrames
    omega
  obtain ⟨u, hPage, -⟩ : ∃ u, mapPage standartAllocator d (0x400000 * (n + 1)) t = some u ∧
      0 ≤ freeCount u.frameTable.isTaken u.frameTable.length := mapPage_isSome hSome
  have hLess : framesLeft u + 1 = framesLeft t := freeCount_mapPage hPage
  refine ⟨u, (pageFault_eq hDir (by omega) (by omega)).trans hPage, ?_⟩
  obtain ⟨hNew, hTables⟩ := mapPage_new (h.room.mono (by omega)) hMissing hPage
  constructor
  · omega
  · exact ⟨by omega, by omega⟩
  · omega
  · intro i hi hi'
    rw [hTables, Function.update_of_ne (by omega)]
    exact h.missing i (by omega) hi'

theorem faults_succ (d n : Nat) :
    faults d (n + 1) = faults d n ++ [.pageFault 0 (0x400000 * (n + 1)) (some d)] := by
  rw [faults, List.range_succ, List.map_append]
  rfl

theorem run_faults {s : PagingSystem} {d k n : Nat} (hDir : d ≠ 0) (hKnown : d ∈ s.dirs)
    (hn : n < 767) (hk : n < k) (h : Touched d k s.paging s.paging 0) :
    ∃ t, Run PagingStep s (faults d n) t ∧ Touched d k s.paging t.paging n ∧ t.dirs = s.dirs := by
  induction n with
  | zero => exact ⟨s, .refl, h, rfl⟩
  | succ n ih =>
    obtain ⟨t, hRun, hTouched, hDirs⟩ := ih (by omega) (by omega)
    obtain ⟨u, hFault, hNext⟩ := touched_succ hDir (by omega) (by omega) hTouched
    refine ⟨⟨u, t.dirs⟩, ?_, hNext, hDirs⟩
    rw [faults_succ]
    refine .tail hRun (.pageFault (by omega) (fun e he => ?_) hFault)
    cases he
    exact Or.inr (hDirs ▸ hKnown)

/-- When the tables that were made reach the end of the map, the next one lies behind it. -/
theorem not_throughout_faults {s : PagingSystem} {d k n : Nat} (hDir : d ≠ 0) (hKnown : d ∈ s.dirs)
    (hn : n < 767) (hk : n < k) (h : Touched d k s.paging s.paging 0)
    (hReached : mappedRegion ≤ s.paging.primitiveHeap + 4096 * n) :
    ¬ Throughout PagingStep HeapMapped s (faults d (n + 1)) := by
  intro hAll
  obtain ⟨t, hRun, hTouched, -⟩ := run_faults hDir hKnown hn hk h
  have hMapped := hAll (faults d n) _ [] t (faults_succ d n) hRun
  have hSlot : 0x400000 * (n + 1) / 4096 / 1024 = n + 1 := by omega
  have hMissing := hTouched.missing (n + 1) (by omega) (by omega)
  have hRegions : PagingEvent.regions t.paging (.pageFault 0 (0x400000 * (n + 1)) (some d)) =
      [⟨(t.paging.primitiveHeap + 4095) / 4096 * 4096, 4096⟩] :=
    (pageFaultRegions_eq hDir (by omega) (by omega)).trans
      (getPageRegions_missing (hSlot.symm ▸ hMissing) (hTouched.room.mono (by omega)))
  have hTable := hMapped.inside _ (hRegions ▸ List.mem_singleton_self _)
  have hHeap := hTouched.heap
  unfold Region.Mapped at hTable
  simp only at hTable
  omega

/-- The kernel's process faults in 227 places. -/
theorem not_heapMapped_faults :
    ∃ s, pagingInitialize (some (0xC0000000, 0xC1000000)) kernelImage = some s ∧
      ¬ Throughout PagingStep HeapMapped (.boot s) (faults s.kernelDirectory 227) := by
  obtain ⟨u, v, hBoots⟩ := boots imageEnd_kernelImage (some (0xC0000000, 0xC1000000))
  have hDir := hBoots.kernel_ne_zero imageEnd_kernelImage
  have hHeap : 0x11E000 ≤ v.primitiveHeap := Nat.le_trans (by decide) hBoots.heap_le
  have hKnown : v.kernelDirectory ∈ (PagingSystem.boot (enablePaging v)).dirs :=
    List.mem_cons_of_mem _ List.mem_cons_self
  have hTouched : Touched v.kernelDirectory 36352 (enablePaging v) (enablePaging v) 0 :=
    ⟨rfl, hBoots.room, hBoots.frames, fun i => hBoots.tables_gap⟩
  refine ⟨_, hBoots.result, not_throughout_faults hDir hKnown (by decide) (by decide) hTouched ?_⟩
  exact Nat.le_trans (by decide) (Nat.add_le_add_right hHeap _)

end Juos.Paging
