import Juos.Paging.Directories

/-!
# Faults inside the calls

The paging code works on directories and tables through addresses that are translated like all
others. `access` is one such access. When the page is not mapped in the directory that is loaded,
`page_fault_handler` is run in the middle of the call, and it maps the page for the process that
runs next.

The frame of an iteration is chosen before the new table is cleared and marked taken afterwards. A
fault in between is given the same frame, so two entries hold it (`not_exclusive_faults`). As long
as the calls leave the map of the kernel's own memory alone (`KeepsMap`) no access faults. Then
`KernelStep` is `PagingStep`, and every frame has one owner (`exclusive_of_run`).
-/

namespace Juos.Paging

open Machine

/-! ## The calls -/

/-- What an access to an address leaves, `none` when it never succeeds. -/
abbrev Access := Nat → PagingState → Option PagingState

/-- What the processor and the scheduler have when a call is made. -/
structure Context where
  /-- the directory that is loaded -/
  loaded : Nat
  /-- the directory of the process that `GetNext` returns -/
  next : Option Nat

def enterTable (dir tableIdx : Nat) (r : Allocation) (s : PagingState) : PagingState :=
  { s with
    primitiveHeap := r.primitiveHeap
    directories := Function.update s.directories dir
      { s.directories dir with
        tables := Function.update (s.directories dir).tables tableIdx r.ptr } }

def clearTable (table : Nat) (s : PagingState) : PagingState :=
  { s with enteries := Function.update s.enteries table fun _ => .zero }

def enterAddress (dir tableIdx phys : Nat) (s : PagingState) : PagingState :=
  { s with
    directories := Function.update s.directories dir
      { s.directories dir with
        tableAddresses :=
          Function.update (s.directories dir).tableAddresses tableIdx (phys ||| 7) } }

/-- `_get_page`, which makes the table when there is none. -/
def getPageOn (access : Access) (addr dir : Nat) (s : PagingState) :
    Option ((Nat × Nat) × PagingState) :=
  let pageIdx := addr / 4096
  let tableIdx := pageIdx / 1024
  (access (dir + 4 * tableIdx) s).bind fun s =>
    let table := (s.directories dir).tables tableIdx
    if table ≠ 0 then some ((table, pageIdx % 1024), s)
    else
      let r := standartAllocator 4096 s.primitiveHeap
      -- the table is entered first and then cleared
      (access r.ptr (enterTable dir tableIdx r s)).bind fun s =>
        (access (dir + 4096 + 4 * tableIdx) (clearTable r.ptr s)).map fun s =>
          ((r.ptr, r.phys % 1024), enterAddress dir tableIdx r.phys s)

/-- The body of the loop. The frame is looked for first and marked last. -/
def mapPageOn (access : Access) (dir top : Nat) (s : PagingState) : Option PagingState :=
  let res := s.frameTable.findFirst
  (getPageOn access top dir s).bind fun page =>
    res.bind fun idx =>
      (access (page.1.1 + 4 * page.1.2) page.2).map (writePage page.1 idx)

def mapLoopOn (access : Access) (dir stop : Nat) :
    Nat → Nat → PagingState → Option (Nat × PagingState)
  | 0, _, _ => none
  | fuel + 1, top, s =>
    if top < stop then
      (mapPageOn access dir top s).bind fun s =>
        (mapLoopOn access dir stop fuel ((top + 4096) % 4294967296) s).map fun r =>
          (r.1 + 1, r.2)
    else some (0, s)

def mapRegionOn (access : Access) (start stop dir : Nat) (s : PagingState) :
    Option (Nat × PagingState) :=
  mapLoopOn access (target dir s) stop (s.frameTable.length + 1) start s

def pageFaultHandlerOn (access : Access) (errCode faultingAddress : Nat) (directory : Option Nat)
    (s : PagingState) : Option PagingState :=
  match directory with
  | some dir =>
    if errCode % 2 = 0 then
      let baseFault := faultingAddress - faultingAddress % 4096
      let topFault := (baseFault + 4096) % 4294967296
      (mapRegionOn access baseFault topFault dir s).map Prod.snd
    else none
  | none => none

def clearDirectory (dir : Nat) (s : PagingState) : PagingState :=
  { s with directories := Function.update s.directories dir .zero }

/-- The first tables of the current directory. -/
def shareTables (dir : Nat) (s : PagingState) : PagingState :=
  let current := s.directories s.pagingCurrentDirectory
  { s with
    directories := Function.update s.directories dir
      { tables := fun i =>
          if i < s.baseKernelTablesSize then current.tables i else (s.directories dir).tables i
        tableAddresses := fun i =>
          if i < s.baseKernelTablesSize then current.tableAddresses i
          else (s.directories dir).tableAddresses i } }

def createDirectoryOn (access : Access) (procMappings : List (Nat × Nat)) (s : PagingState) :
    Option (Nat × PagingState) :=
  let r := allocate 8192 s.primitiveHeap
  -- a directory takes two pages
  (access r.ptr { s with primitiveHeap := r.primitiveHeap }).bind fun s =>
    (access (r.ptr + 4096) s).bind fun s =>
      (access s.pagingCurrentDirectory (clearDirectory r.ptr s)).bind fun s =>
        (access (s.pagingCurrentDirectory + 4096) s).bind fun s =>
          (procMappings.foldlM (fun s mapping =>
            (mapRegionOn access mapping.1 mapping.2 r.ptr s).map Prod.snd)
            (shareTables r.ptr s)).map fun s => (r.ptr, s)

/-- An access on the processor. A page that is not present is loaded by the handler, and the access
is made again; faults may come inside the handler, down to `depth`. -/
def access (c : Context) : Nat → Access
  | 0, a, s => if (translateIn s c.loaded a).isSome then some s else none
  | depth + 1, a, s =>
    if (translateIn s c.loaded a).isSome then some s
    else (pageFaultHandlerOn (access c depth) 0 a c.next s).bind (access c depth a)

/-- The directories of the context exist. -/
structure Context.Known (c : Context) (s : PagingSystem) : Prop where
  loaded : c.loaded ∈ s.dirs
  next : ∀ dir ∈ c.next, Paging.Known s dir

/-- The calls of `PagingStep` with the faults inside them. -/
inductive KernelStep : PagingSystem → PagingEvent → PagingSystem → Prop
  | mapRegion {s : PagingSystem} {start stop dir n depth : Nat} {t : PagingState} {c : Context}
      (hContext : c.Known s) (hStart : start < 4294967296) (hStop : stop < 4294967296)
      (hDir : Known s dir)
      (hRun : mapRegionOn (access c depth) start stop dir s.paging = some (n, t)) :
      KernelStep s (.mapRegion start stop dir) ⟨t, s.dirs⟩
  | createDirectory {s : PagingSystem} {procMappings : List (Nat × Nat)} {dir depth : Nat}
      {t : PagingState} {c : Context} (hContext : c.Known s)
      (hMappings : ∀ e ∈ procMappings, e.1 < 4294967296 ∧ e.2 < 4294967296)
      (hRun : createDirectoryOn (access c depth) procMappings s.paging = some (dir, t)) :
      KernelStep s (.createDirectory procMappings) ⟨t, dir :: s.dirs⟩
  | pageFault {s : PagingSystem} {errCode faultingAddress depth : Nat} {directory : Option Nat}
      {t : PagingState} {c : Context} (hContext : c.Known s)
      (hAddress : faultingAddress < 4294967296) (hDir : ∀ dir ∈ directory, Known s dir)
      (hRun : pageFaultHandlerOn (access c depth) errCode faultingAddress directory s.paging =
        some t) :
      KernelStep s (.pageFault errCode faultingAddress directory) ⟨t, s.dirs⟩

/-- Where the linker script puts the kernel's image. -/
abbrev imageStart : Nat := 0x100000

/-- The call takes its memory inside the identity map, and leaves the pages of the kernel's image
and of its directories and tables as they are mapped. -/
structure KeepsMap (s : PagingSystem) (e : PagingEvent) : Prop where
  room : Room s e
  image : ∀ top ∈ e.tops s.paging, top < imageStart ∨ mappedRegion ≤ top

/-! ## No fault -/

variable {roots dirs : List Nat} {s t : PagingState} {c : Context}
  {dir d top stop start i n idx depth fuel a : Nat}

/-- An address in the first table that the processor finds a page for. -/
structure Reaches (s : PagingState) (d a : Nat) : Prop where
  found : (translateIn s d a).isSome = true
  first : a / 4096 / 1024 = 0

/-- The kernel's own memory is mapped in the directory `d`. -/
def ReachesKernel (s : PagingState) (d : Nat) : Prop :=
  ∀ a, imageStart ≤ a → a < mappedRegion → Reaches s d a

theorem access_of_reaches (h : Reaches s c.loaded a) : access c depth a s = some s := by
  cases depth with
  | zero => exact if_pos h.found
  | succ depth => exact if_pos h.found

/-- An entry of the first table that is present stays so. -/
theorem Reaches.congr (h : Reaches s d a) (hOn : t.pagingEnabled = s.pagingEnabled)
    (hAddress : (t.directories d).tableAddresses 0 = (s.directories d).tableAddresses 0)
    (hEnteries : ∀ k,
      (s.enteries ((s.directories d).tableAddresses 0 / 4096 * 4096) k).isPresent = true →
        (t.enteries ((s.directories d).tableAddresses 0 / 4096 * 4096) k).isPresent = true) :
    Reaches t d a := by
  refine ⟨?_, h.first⟩
  have hFound := h.found
  simp only [translateIn, translate, h.first, hOn, hAddress] at hFound ⊢
  split
  case isTrue hEnabled =>
    rw [if_pos hEnabled] at hFound
    by_cases hPresent : (s.directories d).tableAddresses 0 % 2 = 1 ∧
        (s.enteries ((s.directories d).tableAddresses 0 / 4096 * 4096)
          (a / 4096 % 1024)).isPresent = true
    · rw [if_pos ⟨hPresent.1, hEnteries _ hPresent.2⟩]
      rfl
    · rw [if_neg hPresent] at hFound
      cases hFound
  case isFalse => rfl

/-- The entry of a first table that is entered. -/
theorem Reaches.of_entry (hOn : s.pagingEnabled = true) (hFirst : a / 4096 / 1024 = 0)
    (hAddress : (s.directories d).tableAddresses 0 % 2 = 1)
    (hPresent : (s.enteries ((s.directories d).tableAddresses 0 / 4096 * 4096)
      (a / 4096 % 1024)).isPresent = true) : Reaches s d a := by
  refine ⟨?_, hFirst⟩
  simp only [translateIn, translate, hOn, hFirst, if_true, if_pos (And.intro hAddress hPresent),
    Option.isSome_some]

theorem enterAddress_eq_newTable (dir i : Nat) (r : Allocation) (s : PagingState) :
    enterAddress dir i r.phys (clearTable r.ptr (enterTable dir i r s)) = newTable dir i r s := by
  simp only [enterAddress, clearTable, enterTable, newTable, Function.update_self,
    Function.update_idem]

@[simp] theorem enterTable_addresses (dir i : Nat) (r : Allocation) (s : PagingState) (d : Nat) :
    ((enterTable dir i r s).directories d).tableAddresses =
      (s.directories d).tableAddresses := by
  by_cases hdd : d = dir
  · subst hdd
    simp only [enterTable, Function.update_self]
  · simp only [enterTable, Function.update_of_ne hdd]

theorem Reaches.enterTable (h : Reaches s d a) (dir i : Nat) (r : Allocation) :
    Reaches (enterTable dir i r s) d a :=
  h.congr rfl (congrFun (enterTable_addresses dir i r s d) 0) fun _ => id

theorem Reaches.clearTable (h : Reaches s d a) {p : Nat}
    (hne : (s.directories d).tableAddresses 0 / 4096 * 4096 ≠ p) :
    Reaches (clearTable p s) d a := by
  refine h.congr rfl rfl fun k hPresent => ?_
  simp only [Paging.clearTable, Function.update_of_ne hne]
  exact hPresent

theorem Reaches.enterAddress (h : Reaches s d a) (hi : i ≠ 0) (dir phys : Nat) :
    Reaches (enterAddress dir i phys s) d a := by
  refine h.congr rfl ?_ fun _ => id
  by_cases hdd : d = dir
  · subst hdd
    simp only [Paging.enterAddress, Function.update_self, Function.update_of_ne hi.symm]
  · simp only [Paging.enterAddress, Function.update_of_ne hdd]

theorem Reaches.writePage (h : Reaches s d a) (loc : Nat × Nat) (idx : Nat) :
    Reaches (writePage loc idx s) d a := by
  refine h.congr rfl rfl fun k hPresent => ?_
  by_cases hLoc : (s.directories d).tableAddresses 0 / 4096 * 4096 = loc.1 ∧ k = loc.2
  · rw [hLoc.1, hLoc.2, writePage_enteries_self]
    rfl
  · rw [writePage_enteries_of_ne idx s (by tauto)]
    exact hPresent

/-- The directory or table lies in the kernel's own memory. -/
def Placed (a size : Nat) : Prop := imageStart ≤ a ∧ a + size ≤ mappedRegion

/-- An iteration that finds its table. -/
theorem mapPageOn_of_table (h : ReachesKernel s c.loaded) (hDir : Placed dir 8192)
    (hTop : top < 4294967296) (hTable : (s.directories dir).tables (top / 4096 / 1024) ≠ 0)
    (hPlaced : Placed ((s.directories dir).tables (top / 4096 / 1024)) 4096) :
    mapPageOn (access c depth) dir top s = mapPage standartAllocator dir top s := by
  obtain ⟨hLe, hLt⟩ := hDir
  obtain ⟨hLe', hLt'⟩ := hPlaced
  have hPage : getPageOn (access c depth) top dir s =
      some (((s.directories dir).tables (top / 4096 / 1024), top / 4096 % 1024), s) := by
    rw [getPageOn]
    dsimp only
    rw [access_of_reaches (h _ (by omega) (by omega)), Option.bind_some, if_pos hTable]
  have hEntry : Reaches s c.loaded
      ((s.directories dir).tables (top / 4096 / 1024) + 4 * (top / 4096 % 1024)) :=
    h _ (by omega) (by omega)
  rw [mapPageOn, hPage, Option.bind_some]
  cases hFind : s.frameTable.findFirst with
  | none => rw [mapPage, hFind, Option.bind_none]
  | some idx =>
    rw [Option.bind_some, access_of_reaches hEntry, mapPage_of_table hFind hTable]
    rfl

theorem getPageOn_of_missing {r : Allocation} (hr : standartAllocator 4096 s.primitiveHeap = r)
    (h : ReachesKernel s c.loaded) (hDir : Placed dir 8192) (hTop : top < 4294967296)
    (hTable : (s.directories dir).tables (top / 4096 / 1024) = 0) :
    getPageOn (access c depth) top dir s =
      (access c depth r.ptr (enterTable dir (top / 4096 / 1024) r s)).bind fun u =>
        (access c depth (dir + 4096 + 4 * (top / 4096 / 1024)) (clearTable r.ptr u)).map
          fun u => ((r.ptr, r.phys % 1024), enterAddress dir (top / 4096 / 1024) r.phys u) := by
  obtain ⟨hLe, hLt⟩ := hDir
  subst hr
  rw [getPageOn]
  dsimp only
  rw [access_of_reaches (h _ (by omega) (by omega)), Option.bind_some, if_neg (not_not.mpr hTable)]

/-- An iteration that makes its table. -/
theorem mapPageOn_of_missing {r : Allocation} (hr : standartAllocator 4096 s.primitiveHeap = r)
    (h : ReachesKernel s c.loaded) (hDir : Placed dir 8192) (hTop : top < 4294967296)
    (hSlot : top / 4096 / 1024 ≠ 0) (hTable : (s.directories dir).tables (top / 4096 / 1024) = 0)
    (hPlaced : Placed r.ptr 4096)
    (hne : (s.directories c.loaded).tableAddresses 0 / 4096 * 4096 ≠ r.ptr) :
    mapPageOn (access c depth) dir top s = mapPage standartAllocator dir top s := by
  have hEntered : ReachesKernel (enterTable dir (top / 4096 / 1024) r s) c.loaded :=
    fun a ha ha' => (h a ha ha').enterTable dir (top / 4096 / 1024) r
  have hCleared : ReachesKernel (clearTable r.ptr (enterTable dir (top / 4096 / 1024) r s))
      c.loaded := fun a ha ha' => (hEntered a ha ha').clearTable (by rwa [enterTable_addresses])
  have hEntry : Reaches (enterAddress dir (top / 4096 / 1024) r.phys
      (clearTable r.ptr (enterTable dir (top / 4096 / 1024) r s))) c.loaded
      (r.ptr + 4 * (r.phys % 1024)) := by
    obtain ⟨hLe, hLt⟩ := hPlaced
    exact (hCleared _ (by omega) (by omega)).enterAddress hSlot dir r.phys
  rw [mapPageOn, getPageOn_of_missing hr h hDir hTop hTable]
  obtain ⟨hLe, hLt⟩ := hDir
  obtain ⟨hLe', hLt'⟩ := hPlaced
  rw [access_of_reaches (hEntered _ hLe' (by omega)), Option.bind_some,
    access_of_reaches (hCleared _ (by omega) (by omega)), Option.map_some, Option.bind_some]
  cases hFind : s.frameTable.findFirst with
  | none => rw [mapPage, hFind, Option.bind_none]
  | some idx =>
    rw [Option.bind_some, access_of_reaches hEntry, mapPage_of_missing hFind hTable, hr,
      enterAddress_eq_newTable]
    rfl

/-! ## What keeps the faults away -/

/-- The directories and tables lie in the kernel's own memory, and that is mapped to itself. -/
structure Kernel (roots dirs : List Nat) (s : PagingState) : Prop
    extends Separated roots dirs s where
  frames : s.frameTable.length = numberOfFrames
  end_le : s.primitiveHeap ≤ mappedRegion
  start_le : imageStart ≤ s.primitiveHeap
  placed : ∀ d ∈ dirs, imageStart ≤ d ∧ d + 8192 ≤ s.primitiveHeap
  tables_le : ∀ d ∈ dirs, ∀ i < 1024, (s.directories d).tables i ≠ 0 →
    imageStart ≤ (s.directories d).tables i
  image : ∀ q, 256 ≤ q → q < 512 → (lookup s s.pagingCurrentDirectory q).isPresent = true ∧
    (lookup s s.pagingCurrentDirectory q).frame = q

/-- The first table is the same in all directories. -/
theorem Separated.lookup_first (h : Separated roots dirs s) (hd : d ∈ dirs) {q : Nat}
    (hq : q < 1024) : lookup s d q = lookup s s.pagingCurrentDirectory q := by
  rw [lookup, lookup, show q / 1024 = 0 by omega, (h.first d hd).2]

namespace Kernel

theorem heapRoom (h : Kernel roots dirs s) (hn : n < 1048000) : HeapRoom s.primitiveHeap n :=
  heapRoom_of_mapped (Nat.lt_of_lt_of_le (by decide) h.start_le) h.end_le hn

/-- The pages of the image in any directory. -/
theorem lookup_image (h : Kernel roots dirs s) (hd : d ∈ dirs) {q : Nat} (hq : 256 ≤ q)
    (hq' : q < 512) : (lookup s d q).isPresent = true ∧ (lookup s d q).frame = q := by
  rw [h.lookup_first hd (by omega)]
  exact h.image q hq hq'

theorem reaches (h : Kernel roots dirs s) (hd : d ∈ dirs) : ReachesKernel s d := by
  intro a ha ha'
  unfold mappedRegion at ha'
  unfold imageStart at ha
  refine ⟨?_, by omega⟩
  rw [translateIn_eq (h.walked d hd) h.enabled (by omega),
    if_pos (h.lookup_image hd (by omega) (by omega)).1]
  rfl

theorem placed_dir (h : Kernel roots dirs s) (hd : d ∈ dirs) : Placed d 8192 :=
  ⟨(h.placed d hd).1, Nat.le_trans (h.placed d hd).2 h.end_le⟩

theorem placed_table (h : Kernel roots dirs s) (hd : d ∈ dirs) (hi : i < 1024)
    (hTable : (s.directories d).tables i ≠ 0) : Placed ((s.directories d).tables i) 4096 :=
  ⟨h.tables_le d hd i hi hTable,
    Nat.le_trans ((h.wf d hd).allocated i hi hTable) h.end_le⟩

/-- The processor finds the first table where `_get_page` does. -/
theorem firstTable (h : Kernel roots dirs s) (hd : d ∈ dirs) :
    (s.directories d).tableAddresses 0 / 4096 * 4096 = (s.directories d).tables 0 := by
  obtain ⟨hAligned, hAddress⟩ := (h.walked d hd).addressed 0 (by decide) (h.first d hd).1
  rw [hAddress]
  exact (tableAddress_eq hAligned).2

/-- An iteration that takes its memory inside the map meets no fault. -/
theorem mapPageOn_eq (h : Kernel roots dirs s) (hLoaded : c.loaded ∈ dirs) (hDir : dir ∈ dirs)
    (hTop : top < 4294967296) (hInside : ∀ r ∈ getPageRegions dir top s, r.Mapped) :
    mapPageOn (access c depth) dir top s = mapPage standartAllocator dir top s := by
  have hReaches := h.reaches hLoaded
  have hPlaced := h.placed_dir hDir
  by_cases hTable : (s.directories dir).tables (top / 4096 / 1024) = 0
  · have hRoom : HeapRoom s.primitiveHeap 1 := h.heapRoom (by decide)
    have hStart := h.start_le
    rw [getPageRegions, if_pos hTable, List.forall_mem_singleton] at hInside
    refine mapPageOn_of_missing rfl hReaches hPlaced hTop (fun hZero => ?_) hTable ⟨?_, hInside⟩ ?_
    · exact (h.first dir hDir).1 (hZero ▸ hTable)
    · rw [standartAllocator_eq hRoom]
      dsimp only
      omega
    · rw [h.firstTable hLoaded]
      exact h.fresh hRoom hLoaded (by decide)
  · exact mapPageOn_of_table hReaches hPlaced hTop hTable
      (h.placed_table hDir (by omega) hTable)

/-- Mapping a page leaves the other pages of the first table as they are. -/
theorem first_mapPage (h : Kernel roots dirs s) (hDir : dir ∈ dirs) (hTop : top < 4294967296)
    {q : Nat} (hq : q < 1024) (hOther : top / 4096 ≠ q)
    (hPage : Paging.mapPage standartAllocator dir top s = some t) :
    lookup t s.pagingCurrentDirectory q = lookup s s.pagingCurrentDirectory q := by
  have hCurrent := h.roots_mem _ h.current
  have hFirst := (h.first _ hCurrent).1
  have hRoom : HeapRoom s.primitiveHeap (0 + 1) := h.heapRoom (by decide)
  have hSlot : q / 1024 = 0 := by omega
  obtain ⟨idx, -, ⟨hTable, rfl⟩ | ⟨hTable, rfl⟩⟩ := mapPage_cases hPage
  · rw [lookup, lookup, writePage_directories, hSlot, if_neg hFirst, if_neg hFirst]
    refine writePage_enteries_of_ne _ _ ?_
    -- the entry is not in the first table, or it is the entry of another page
    by_cases hIndex : top / 4096 / 1024 = 0
    · exact Or.inr (by dsimp only; omega)
    · refine Or.inl fun hSame => hIndex ?_
      rw [← (h.first dir hDir).2] at hSame
      exact ((h.wf dir hDir).distinct 0 (by decide) _ (by omega) (h.first dir hDir).1 hSame).symm
  · have hFresh := h.fresh hRoom hCurrent (by decide : 0 < 1024)
    have hNew : top / 4096 / 1024 ≠ 0 := fun hZero => (h.first dir hDir).1 (hZero ▸ hTable)
    have hSame : ((newTable dir (top / 4096 / 1024) (standartAllocator 4096 s.primitiveHeap)
        s).directories s.pagingCurrentDirectory).tables 0 =
          (s.directories s.pagingCurrentDirectory).tables 0 := by
      by_cases hdd : s.pagingCurrentDirectory = dir
      · rw [hdd]
        exact newTable_tables_of_ne hNew.symm
      · rw [newTable_of_ne hdd]
    rw [lookup, lookup, writePage_directories, hSlot, hSame, if_neg hFirst, if_neg hFirst,
      writePage_enteries_of_ne _ _ (Or.inl hFresh), newTable_enteries_of_ne hFresh]

theorem mapPage (h : Kernel roots dirs s) (hDir : dir ∈ dirs) (hTop : top < 4294967296)
    (hOther : top < imageStart ∨ mappedRegion ≤ top)
    (hInside : ∀ r ∈ getPageRegions dir top s, r.Mapped)
    (hPage : Paging.mapPage standartAllocator dir top s = some t) : Kernel roots dirs t := by
  have hSame := mapPage_sameRoots hPage
  have hGrown := grown_mapPage (h.heapRoom (by decide)) hInside hPage
  obtain ⟨-, hLe, -, hTables⟩ := h.toWalkable.mapPage hPage
  refine ⟨h.toSeparated.mapPage hPage, hSame.length_eq.trans h.frames, ?_,
    Nat.le_trans h.start_le hLe, fun d hd => ?_, fun d hd i hi hTable => ?_, fun q hq hq' => ?_⟩
  · rcases hGrown.end_le with hHeap | hMapped
    · exact Nat.le_trans (Nat.le_of_eq hHeap) h.end_le
    · exact hMapped
  · exact ⟨(h.placed d hd).1, Nat.le_trans (h.placed d hd).2 hLe⟩
  · rcases hTables with hOld | hMade
    · rw [hOld] at hTable ⊢
      exact h.tables_le d hd i hi hTable
    · by_cases hNew : d = dir ∧ i = top / 4096 / 1024
      · rw [hNew.1, hNew.2]
        exact Nat.le_trans h.start_le hMade.above
      · rw [hMade.old hNew] at hTable ⊢
        exact h.tables_le d hd i hi hTable
  · unfold imageStart mappedRegion at hOther
    rw [hSame.current, h.first_mapPage hDir hTop (by omega) (by omega) hPage]
    exact h.image q hq hq'

theorem mapLoop (h : Kernel roots dirs s) (hDir : dir ∈ dirs) (hTop : top < 4294967296)
    (hOther : ∀ p ∈ loopPages stop fuel top, p < imageStart ∨ mappedRegion ≤ p)
    (hInside : ∀ r ∈ mapLoopRegions dir stop fuel top s, r.Mapped) :
    (∀ c depth, c.loaded ∈ dirs → mapLoopOn (access c depth) dir stop fuel top s =
      Paging.mapLoop standartAllocator dir stop fuel top s) ∧
    ∀ n t, Paging.mapLoop standartAllocator dir stop fuel top s = some (n, t) →
      Kernel roots dirs t := by
  induction fuel generalizing top s with
  | zero => exact ⟨fun _ _ _ => rfl, fun n t hRun => by cases hRun⟩
  | succ fuel ih =>
    unfold mapLoopOn Paging.mapLoop
    rw [loopPages] at hOther
    rw [mapLoopRegions] at hInside
    by_cases hStop : top < stop
    · rw [if_pos hStop] at hInside hOther
      simp only [if_pos hStop]
      rw [List.forall_mem_append] at hInside
      rw [List.forall_mem_cons] at hOther
      cases hPage : Paging.mapPage standartAllocator dir top s with
      | none =>
        refine ⟨fun c depth hLoaded => ?_, fun n t hRun => by cases hRun⟩
        rw [h.mapPageOn_eq hLoaded hDir hTop hInside.1, hPage]
        rfl
      | some u =>
        rw [hPage] at hInside
        obtain ⟨hSame, hKept⟩ := ih (h.mapPage hDir hTop hOther.1 hInside.1 hPage)
          (Nat.mod_lt _ (by decide)) hOther.2 hInside.2
        refine ⟨fun c depth hLoaded => ?_, fun n t hRun => ?_⟩
        · rw [h.mapPageOn_eq hLoaded hDir hTop hInside.1, hPage, Option.bind_some,
            Option.bind_some, hSame c depth hLoaded]
        · obtain ⟨r, hLoop, hEq⟩ := Option.map_eq_some_iff.mp hRun
          cases hEq
          exact hKept r.1 r.2 hLoop
    · rw [if_neg hStop]
      refine ⟨fun _ _ _ => if_neg hStop, fun n t hRun => ?_⟩
      cases hRun
      exact h

theorem mapRegion (h : Kernel roots dirs s) (hDir : target dir s ∈ dirs)
    (hStart : start < 4294967296)
    (hOther : ∀ p ∈ loopPages stop (s.frameTable.length + 1) start,
      p < imageStart ∨ mappedRegion ≤ p)
    (hInside : ∀ r ∈ mapRegionRegions start stop dir s, r.Mapped) :
    (∀ c depth, c.loaded ∈ dirs → mapRegionOn (access c depth) start stop dir s =
      Paging.mapRegion start stop standartAllocator dir s) ∧
    ∀ n t, Paging.mapRegion start stop standartAllocator dir s = some (n, t) →
      Kernel roots dirs t :=
  h.mapLoop hDir hStart hOther hInside

/-- The mappings of a new directory. -/
theorem mappings (h : Kernel roots dirs s) (hDir : dir ∈ dirs) (hne : dir ≠ 0)
    {mappings : List (Nat × Nat)} (hStart : ∀ e ∈ mappings, e.1 < 4294967296)
    (hOther : ∀ p ∈ mappingPages s.frameTable.length mappings, p < imageStart ∨ mappedRegion ≤ p)
    (hInside : ∀ r ∈ mappingRegions dir mappings s, r.Mapped) :
    (∀ c depth, c.loaded ∈ dirs →
      mappings.foldlM (fun s mapping =>
        (mapRegionOn (access c depth) mapping.1 mapping.2 dir s).map Prod.snd) s =
      mappings.foldlM (fun s mapping =>
        (Paging.mapRegion mapping.1 mapping.2 standartAllocator dir s).map Prod.snd) s) ∧
    ∀ t, mappings.foldlM (fun s mapping =>
      (Paging.mapRegion mapping.1 mapping.2 standartAllocator dir s).map Prod.snd) s = some t →
        Kernel roots dirs t := by
  induction mappings generalizing s with
  | nil =>
    refine ⟨fun _ _ _ => rfl, fun t hRun => ?_⟩
    cases hRun
    exact h
  | cons mapping mappings ih =>
    rw [List.forall_mem_cons] at hStart
    rw [mappingPages, List.flatMap_cons, List.forall_mem_append] at hOther
    rw [mappingRegions, List.forall_mem_append] at hInside
    have hTarget : target dir s = dir := if_neg hne
    obtain ⟨hSame, hKept⟩ := h.mapRegion (hTarget.symm ▸ hDir) hStart.1 hOther.1 hInside.1
    simp only [List.foldlM_cons]
    cases hRun : Paging.mapRegion mapping.1 mapping.2 standartAllocator dir s with
    | none =>
      refine ⟨fun c depth hLoaded => ?_, fun t hNone => by cases hNone⟩
      rw [hSame c depth hLoaded, hRun]
      rfl
    | some r =>
      rw [hRun] at hInside
      have hNext := hKept r.1 r.2 hRun
      obtain ⟨hRest, hKept'⟩ := ih hNext hStart.2
        (by rw [hNext.frames, ← h.frames]; exact hOther.2) hInside.2
      refine ⟨fun c depth hLoaded => ?_, fun t hFold => hKept' t hFold⟩
      rw [hSame c depth hLoaded, hRun]
      exact hRest c depth hLoaded

theorem heapInv (h : Kernel roots dirs s) : HeapInv s where
  room := h.heapRoom (by decide)
  current_lt := (h.below _ (h.roots_mem _ h.current)).2

theorem roomForDirectory (h : Kernel roots dirs s) :
    HeapRoom s.primitiveHeap (framesLeft s + 2) := by
  have hLeft : framesLeft s ≤ s.frameTable.length := freeCount_le
  rw [h.frames] at hLeft
  unfold numberOfFrames at hLeft
  exact h.heapRoom (by omega)

/-- A new directory that lies inside the map. -/
theorem newDirectory (h : Kernel roots dirs s)
    (hMapped : (allocate 8192 s.primitiveHeap).ptr + 8192 ≤ mappedRegion) :
    Kernel roots ((allocate 8192 s.primitiveHeap).ptr :: dirs) (newDirectory s) := by
  have hRoom := h.roomForDirectory
  have hCurrent := h.roots_mem _ h.current
  have hStarted := started_newDirectory h.base (h.below _ hCurrent).2 hRoom
  have hSeparated := h.toSeparated.newDirectory hRoom
  have hRoots := newDirectory_sameRoots s
  have hEnteries := newDirectory_enteries s
  generalize (allocate 8192 s.primitiveHeap).ptr = dir at hStarted hSeparated hMapped ⊢
  generalize Paging.newDirectory s = t at hStarted hSeparated hRoots hEnteries ⊢
  have hHeap := hStarted.heap
  have hLe := hStarted.heap_le
  have hStart := h.start_le
  have hOld : ∀ d ∈ dirs, t.directories d = s.directories d := by
    intro d hd
    apply hStarted.others
    rintro rfl
    exact absurd (h.below d hd).2 (Nat.not_lt_of_le hLe)
  refine ⟨hSeparated, hRoots.length_eq.trans h.frames, by omega, by omega, ?_, ?_,
    fun q hq hq' => ?_⟩
  · rw [List.forall_mem_cons]
    refine ⟨by omega, fun d hd => ?_⟩
    have hPlaced := h.placed d hd
    omega
  · rw [List.forall_mem_cons]
    refine ⟨fun i hi hTable => ?_, fun d hd => ?_⟩
    · by_cases hZero : i = 0
      · rw [hZero, hStarted.tables_zero] at hTable ⊢
        exact h.tables_le _ hCurrent 0 (by decide) hTable
      · exact absurd (hStarted.tables_pos hZero) hTable
    · rw [hOld d hd]
      exact h.tables_le d hd
  · rw [hRoots.current, lookup, hOld _ hCurrent, hEnteries, ← lookup]
    exact h.image q hq hq'

end Kernel

theorem shareTables_eq {r : Allocation} (hr : allocate 8192 s.primitiveHeap = r) :
    shareTables r.ptr (clearDirectory r.ptr { s with primitiveHeap := r.primitiveHeap }) =
      newDirectory s := by
  simp only [shareTables, clearDirectory, newDirectory, hr, Function.update_self,
    Function.update_idem, PageDirectory.zero]

/-- The first half of `create_directory` without a fault. -/
theorem createDirectoryOn_of_reaches {r : Allocation} (hr : allocate 8192 s.primitiveHeap = r)
    (h : ReachesKernel s c.loaded) (hne : c.loaded ≠ r.ptr) (hPlaced : Placed r.ptr 8192)
    (hCurrent : Placed s.pagingCurrentDirectory 8192) (mappings : List (Nat × Nat)) :
    createDirectoryOn (access c depth) mappings s =
      (mappings.foldlM (fun s mapping =>
        (mapRegionOn (access c depth) mapping.1 mapping.2 r.ptr s).map Prod.snd)
        (newDirectory s)).map fun t => (r.ptr, t) := by
  have hTaken : ReachesKernel { s with primitiveHeap := r.primitiveHeap } c.loaded :=
    fun a ha ha' => (h a ha ha').congr rfl rfl fun _ => id
  have hCleared : ReachesKernel (clearDirectory r.ptr { s with primitiveHeap := r.primitiveHeap })
      c.loaded := by
    refine fun a ha ha' => (hTaken a ha ha').congr rfl ?_ fun _ => id
    simp only [clearDirectory, Function.update_of_ne hne]
  obtain ⟨hLe, hLt⟩ := hPlaced
  obtain ⟨hLe', hLt'⟩ := hCurrent
  have hSecond := hCleared (s.pagingCurrentDirectory + 4096) (by omega) (by omega)
  rw [createDirectoryOn, hr, access_of_reaches (hTaken _ hLe (by omega)), Option.bind_some,
    access_of_reaches (hTaken _ (by omega) (by omega)), Option.bind_some,
    access_of_reaches (hCleared _ hLe' (by omega)), Option.bind_some]
  refine (congrArg (Option.bind · _) (access_of_reaches hSecond)).trans ?_
  rw [Option.bind_some, shareTables_eq hr]

/-- `create_directory` with a directory and tables inside the map. -/
theorem Kernel.createDirectory (h : Kernel roots dirs s) {mappings : List (Nat × Nat)}
    (hStart : ∀ e ∈ mappings, e.1 < 4294967296)
    (hOther : ∀ p ∈ mappingPages s.frameTable.length mappings, p < imageStart ∨ mappedRegion ≤ p)
    (hInside : ∀ r ∈ createDirectoryRegions mappings s, r.Mapped) :
    (∀ c depth, c.loaded ∈ dirs → createDirectoryOn (access c depth) mappings s =
      Paging.createDirectory mappings s) ∧
    ∀ dir t, Paging.createDirectory mappings s = some (dir, t) →
      Kernel roots (dir :: dirs) t := by
  have hCurrent := h.roots_mem _ h.current
  have hStarted := started_newDirectory h.base (h.below _ hCurrent).2 h.roomForDirectory
  rw [createDirectoryRegions, List.forall_mem_cons] at hInside
  obtain ⟨hSame, hKept⟩ := (h.newDirectory hInside.1).mappings List.mem_cons_self hStarted.ne_zero
    hStart (by rwa [newDirectory_frameTable]) hInside.2
  constructor
  · intro c depth hLoaded
    have hne : c.loaded ≠ (allocate 8192 s.primitiveHeap).ptr := fun hEq =>
      absurd (hEq ▸ (h.below _ hLoaded).2) (Nat.not_lt_of_le hStarted.heap_le)
    rw [createDirectoryOn_of_reaches rfl (h.reaches hLoaded) hne
      ⟨Nat.le_trans h.start_le hStarted.heap_le, hInside.1⟩ (h.placed_dir hCurrent),
      hSame c depth (List.mem_cons_of_mem _ hLoaded)]
    rfl
  · intro dir t hRun
    obtain ⟨u, hFold, hEq⟩ := Option.map_eq_some_iff.mp hRun
    cases hEq
    exact hKept _ hFold

/-! ## One call -/

section Step

variable {s t : PagingSystem} {e : PagingEvent}

theorem Kernel.target_mem (h : Kernel roots s.dirs s.paging) (hDir : Known s dir) :
    target dir s.paging ∈ s.dirs := by
  unfold target
  split
  · exact h.roots_mem _ h.current
  · exact hDir.resolve_left ‹_›

/-- The handler called for a page that lies outside of the image. -/
theorem Kernel.pageFault (h : Kernel roots s.dirs s.paging) {errCode addr : Nat}
    {directory : Option Nat} (hKeeps : KeepsMap s (.pageFault errCode addr directory))
    (hAddress : addr < 4294967296) (hDir : ∀ dir ∈ directory, Known s dir) :
    (∀ c depth, c.loaded ∈ s.dirs →
      pageFaultHandlerOn (access c depth) errCode addr directory s.paging =
        pageFaultHandler errCode addr directory s.paging) ∧
    ∀ t, pageFaultHandler errCode addr directory s.paging = some t → Kernel roots s.dirs t := by
  have hInside := (regions_iff h.heapInv _).mpr hKeeps.room
  have hOther := hKeeps.image
  cases directory with
  | none => exact ⟨fun _ _ _ => rfl, fun t hRun => by cases hRun⟩
  | some dir =>
    by_cases hCode : errCode % 2 = 0
    · simp only [PagingEvent.regions, pageFaultRegions, if_pos hCode] at hInside
      simp only [PagingEvent.tops, hCode, Option.isSome_some, and_self, if_true] at hOther
      obtain ⟨hSame, hKept⟩ := h.mapRegion (h.target_mem (hDir dir rfl)) (by omega) hOther hInside
      refine ⟨fun c depth hLoaded => ?_, fun t hFault => ?_⟩
      · rw [pageFaultHandlerOn, pageFaultHandler, if_pos hCode, if_pos hCode]
        exact congrArg (Option.map Prod.snd) (hSame c depth hLoaded)
      · obtain ⟨d, n, hEq, hRun⟩ := pageFault_cases hFault
        cases hEq
        exact hKept n t hRun
    · refine ⟨fun _ _ _ => ?_, fun t hFault => ?_⟩
      · rw [pageFaultHandlerOn, pageFaultHandler, if_neg hCode, if_neg hCode]
      · rw [pageFaultHandler, if_neg hCode] at hFault
        cases hFault

/-- A call that keeps the map does the same as without faults, and the map stays. -/
theorem Kernel.step (h : Kernel roots s.dirs s.paging)
    (hStep : Guarded KernelStep KeepsMap s e t) :
    PagingStep s e t ∧ Kernel roots t.dirs t.paging := by
  obtain ⟨hKeeps, hStep⟩ := hStep
  have hInside := (regions_iff h.heapInv e).mpr hKeeps.room
  cases hStep with
  | mapRegion hContext hStart hStop hDir hRun =>
    obtain ⟨hSame, hKept⟩ := h.mapRegion (h.target_mem hDir) hStart hKeeps.image hInside
    rw [hSame _ _ hContext.loaded] at hRun
    exact ⟨.mapRegion hStart hStop hDir hRun, hKept _ _ hRun⟩
  | createDirectory hContext hMappings hRun =>
    obtain ⟨hSame, hKept⟩ := h.createDirectory (fun m hm => (hMappings m hm).1) hKeeps.image hInside
    rw [hSame _ _ hContext.loaded] at hRun
    exact ⟨.createDirectory hMappings hRun, hKept _ _ hRun⟩
  | pageFault hContext hAddress hDir hRun =>
    obtain ⟨hSame, hKept⟩ := h.pageFault hKeeps hAddress hDir
    rw [hSame _ _ hContext.loaded] at hRun
    exact ⟨.pageFault hAddress hDir hRun, hKept _ hRun⟩

/-- What is done without faults can be done. -/
theorem Kernel.kernelStep (h : Kernel roots s.dirs s.paging) (hKeeps : KeepsMap s e)
    (hStep : PagingStep s e t) : Guarded KernelStep KeepsMap s e t := by
  refine ⟨hKeeps, ?_⟩
  have hInside := (regions_iff h.heapInv e).mpr hKeeps.room
  have hContext : Context.Known ⟨s.paging.pagingCurrentDirectory, none⟩ s :=
    ⟨h.roots_mem _ h.current, fun _ hNone => by cases hNone⟩
  cases hStep with
  | mapRegion hStart hStop hDir hRun =>
    have hSame := (h.mapRegion (h.target_mem hDir) hStart hKeeps.image hInside).1 _ 0
      hContext.loaded
    exact .mapRegion hContext hStart hStop hDir (hSame.trans hRun)
  | createDirectory hMappings hRun =>
    have hSame := (h.createDirectory (fun m hm => (hMappings m hm).1) hKeeps.image hInside).1 _ 0
      hContext.loaded
    exact .createDirectory hContext hMappings (hSame.trans hRun)
  | pageFault hAddress hDir hRun =>
    have hSame := (h.pageFault hKeeps hAddress hDir).1 _ 0 hContext.loaded
    exact .pageFault hContext hAddress hDir (hSame.trans hRun)

end Step

/-! ## Runs -/

/-- A boot whose objects lie inside the map, behind the start of the image. -/
structure Booted (heapMapping : Option (Nat × Nat)) (s t : PagingState) : Prop where
  init : pagingInitialize heapMapping s = some t
  start_le : imageStart ≤ s.primitiveHeap
  image : ImageEnd s
  end_le : t.primitiveHeap ≤ mappedRegion

section Boot

variable {heapMapping : Option (Nat × Nat)}

/-- While the kernel boots, its tables are made behind its image. -/
structure Behind (dirs : List Nat) (s : PagingState) : Prop extends Walkable dirs s where
  start_le : imageStart ≤ s.primitiveHeap
  tables_le : ∀ d ∈ dirs, ∀ i < 1024, (s.directories d).tables i ≠ 0 →
    imageStart ≤ (s.directories d).tables i

theorem Behind.mapRegion (h : Behind dirs s)
    (hRun : mapRegion start stop standartAllocator dir s = some (n, t)) : Behind dirs t := by
  refine mapLoop_invariant (fun u v top hu hPage => ?_) hRun h
  obtain ⟨hWalkable, hLe, -, hOld | hMade⟩ := hu.toWalkable.mapPage hPage
  · refine ⟨hWalkable, Nat.le_trans hu.start_le hLe, ?_⟩
    rw [hOld]
    exact hu.tables_le
  · refine ⟨hWalkable, Nat.le_trans hu.start_le hLe, fun d hd i hi hTable => ?_⟩
    by_cases hNew : d = target dir s ∧ i = top / 4096 / 1024
    · rw [hNew.1, hNew.2]
      exact Nat.le_trans hu.start_le hMade.above
    · rw [hMade.old hNew] at hTable ⊢
      exact hu.tables_le d hd i hi hTable

theorem behind_boot (h : Booted heapMapping s t) :
    ∃ u, Behind [u.kernelDirectory] u ∧ t = enablePaging u := by
  obtain ⟨-, -, hHeap⟩ := setUp_heap h.image
  have hStart := h.start_le
  refine pagingInitialize_invariant (I := fun u => Behind [u.kernelDirectory] u)
    ⟨walkable_setUp h.image, by omega, fun d hd i hi hTable => ?_⟩
    (fun u n v start stop hu hRun => ?_)
    (fun u n hu => ⟨hu.toWalkable.setBaseTables n, hu.start_le, hu.tables_le⟩) h.init
  · rw [List.mem_singleton.mp hd] at hTable
    exact absurd (setUp_tables i) hTable
  · rw [(mapRegion_sameRoots hRun).kernel]
    exact hu.mapRegion hRun

/-- The pages of the image after booting. -/
theorem Boots.image_frame {u v : PagingState} (h : Boots heapMapping s u v) (hEnd : ImageEnd s)
    {q : Nat} (hq : q < 512) :
    (lookup (enablePaging v) v.kernelDirectory q).isPresent = true ∧
      (lookup (enablePaging v) v.kernelDirectory q).frame = q := by
  obtain ⟨-, hKernel, -⟩ := setUp_heap hEnd
  have hPos := hEnd.pos
  refine ⟨h.lookup_image hq, ?_⟩
  have hReady : Ready BelowHeap HeapRoom (setUp s) (setUp s).kernelDirectory 0 (512 + 40448) :=
    ready_setUp hEnd
  have hFrames := (mapRegion_inOrder standartAllocator_aligning hReady (by omega) (Or.inr rfl)
    (inOrder_setUp s) (by decide) h.image).2 q hq
  rw [Nat.zero_add] at hFrames
  rw [h.lookup_kernel (by omega)]
  exact hFrames

theorem kernel_boot (h : Booted heapMapping s t) :
    Kernel (PagingSystem.boot t).dirs (PagingSystem.boot t).dirs t := by
  have hSeparated := separated_boot h.image h.init
  obtain ⟨w, hBehind, hBoot⟩ := behind_boot h
  obtain ⟨u, v, hBoots⟩ := boots h.image heapMapping
  obtain rfl : enablePaging v = t := Option.some.inj (hBoots.result.symm.trans h.init)
  obtain ⟨hCurrent, hKernel, hHeap⟩ := setUp_heap h.image
  have hSame : v.pagingCurrentDirectory = (setUp s).pagingCurrentDirectory :=
    hBoots.heapRoots.current.trans hBoots.imageRoots.current
  have hStart := h.start_le
  have hAbove := hBoots.heap_le
  have hEnd : (enablePaging v).primitiveHeap = v.primitiveHeap := rfl
  refine ⟨hSeparated, ?_, h.end_le, by omega, fun d hd => ?_, fun d hd i hi hTable => ?_,
    fun q hq hq' => ?_⟩
  · have hLength := hBoots.heapRoots.length_eq.trans hBoots.imageRoots.length_eq
    rw [setUp_frameTable] at hLength
    exact hLength
  · have hEither : d = v.pagingCurrentDirectory ∨ d = v.kernelDirectory := by
      simpa [PagingSystem.boot, enablePaging] using hd
    have hBoth := hBoots.kernel
    omega
  · rw [hBoot] at hd hTable ⊢
    have hDirs := enablePaging_directories (s := w) hd
    rw [hDirs] at hTable ⊢
    exact hBehind.tables_le _ (List.mem_singleton_self _) i hi hTable
  · rw [← hSeparated.lookup_first
      (List.mem_cons_of_mem _ (List.mem_singleton_self v.kernelDirectory)) (by omega)]
    exact hBoots.image_frame h.image hq'

/-- Runs that keep the map, without the faults. -/
theorem kernel_of_run (h : Booted heapMapping s t) {u : PagingSystem} {es : List PagingEvent}
    (hRun : Run (Guarded KernelStep KeepsMap) (.boot t) es u) :
    Run PagingStep (.boot t) es u ∧ Kernel (PagingSystem.boot t).dirs u.dirs u.paging := by
  induction hRun with
  | refl => exact ⟨.refl, kernel_boot h⟩
  | tail prior last ih =>
    obtain ⟨hPrior, hKernel⟩ := ih
    obtain ⟨hStep, hNext⟩ := hKernel.step last
    exact ⟨.tail hPrior hStep, hNext⟩

/-- However often regions are mapped, directories created and faults handled, every frame has one
owner as long as the calls keep the map. -/
theorem exclusive_of_run (h : Booted heapMapping s t) {u : PagingSystem} {es : List PagingEvent}
    (hRun : Run (Guarded KernelStep KeepsMap) (.boot t) es u) : Exclusive u.dirs u.paging :=
  (exclusiveInv_kept.run h.init (kernel_of_run h hRun).1).2.exclusive

/-- Each iteration takes at most one page and exactly one frame. -/
theorem pages_mapRegion (h : HeapRoom s.primitiveHeap (framesLeft s))
    (hRun : mapRegion start stop standartAllocator dir s = some (n, t)) :
    HeapRoom t.primitiveHeap (framesLeft t) ∧ (t.primitiveHeap + 4095) / 4096 + framesLeft t ≤
      (s.primitiveHeap + 4095) / 4096 + framesLeft s := by
  refine mapLoop_invariant (I := fun u => HeapRoom u.primitiveHeap (framesLeft u) ∧
    (u.primitiveHeap + 4095) / 4096 + framesLeft u ≤
      (s.primitiveHeap + 4095) / 4096 + framesLeft s) (fun u v top hu hPage => ?_) hRun
    ⟨h, Nat.le_refl _⟩
  obtain ⟨hRoom, hPages⟩ := hu
  have hBelow := hRoom.below
  have hLess : framesLeft v + 1 = framesLeft u := freeCount_mapPage hPage
  by_cases hTable : (u.directories (target dir s)).tables (top / 4096 / 1024) = 0
  · have hHeap := (mapPage_new (hRoom.mono (by omega)) hTable hPage).1
    exact ⟨⟨by omega, by omega⟩, by omega⟩
  · have hHeap := (mapPage_old hTable hPage).1
    rw [hHeap]
    exact ⟨hRoom.mono (by omega), by omega⟩

/-- A process with its stack. -/
abbrev withStack : PagingEvent := .createDirectory [(0xA0000000, 0xA0010000)]

theorem keepsMap_withStack {u : PagingSystem}
    (hRoom : (u.paging.primitiveHeap + 4095) / 4096 + 3 ≤ 512) : KeepsMap u withStack := by
  have hTops : ∀ top ∈ withStack.tops u.paging, 0xA0000000 ≤ top ∧ top < 0xA0010000 := by
    intro top hTop
    simp only [PagingEvent.tops, mappingPages, List.flatMap_cons, List.flatMap_nil,
      List.append_nil] at hTop
    exact mem_loopPages (by decide) hTop
  constructor
  · have hMissing : missing (withStack.tables u.paging)
        ((withStack.tops u.paging).take (framesLeft u.paging + 1)) ≤ ({640} : Finset Nat).card := by
      refine missing_le fun top hTop => Finset.mem_singleton.mpr ?_
      have hBounds := hTops top (List.mem_of_mem_take hTop)
      omega
    rw [Finset.card_singleton] at hMissing
    refine Or.inr ?_
    rw [PagingEvent.asked, PagingEvent.directorySize]
    unfold mappedRegion
    omega
  · intro top hTop
    have hBounds := hTops top hTop
    unfold mappedRegion
    omega

theorem exists_withStack {u : PagingSystem} (h : Kernel roots u.dirs u.paging)
    (hRoom : (u.paging.primitiveHeap + 4095) / 4096 + 3 ≤ 512)
    (hFrames : 16 ≤ framesLeft u.paging) : ∃ d t,
      Guarded KernelStep KeepsMap u withStack ⟨t, d :: u.dirs⟩ ∧ d ∉ u.dirs ∧
        framesLeft u.paging ≤ framesLeft t + 16 ∧
        (t.primitiveHeap + 4095) / 4096 ≤ (u.paging.primitiveHeap + 4095) / 4096 + 18 := by
  have hRoomFor := h.roomForDirectory
  have hBelow := hRoomFor.below
  have hStarted := started_newDirectory h.base (h.below _ (h.roots_mem _ h.current)).2 hRoomFor
  obtain ⟨t, hCreate, hLeft⟩ := createDirectory_isSome (s := u.paging)
    (k := framesLeft u.paging - 16) [(0xA0000, 16)]
    (show 16 + (framesLeft u.paging - 16) ≤ framesLeft u.paging by omega) (by decide)
  have hLeft' : framesLeft u.paging - 16 ≤ framesLeft t := hLeft
  refine ⟨_, t, h.kernelStep (keepsMap_withStack hRoom) (.createDirectory (by decide) hCreate),
    fun hOld => ?_, by omega, ?_⟩
  · exact absurd (h.below _ hOld).2 (Nat.not_lt_of_le hStarted.heap_le)
  · have hPages : HeapRoom t.primitiveHeap (framesLeft t) ∧
        (t.primitiveHeap + 4095) / 4096 + framesLeft t ≤
          (u.paging.primitiveHeap + 4095) / 4096 + 2 + framesLeft u.paging := by
      refine createDirectory_invariant (I := fun w => HeapRoom w.primitiveHeap (framesLeft w) ∧
        (w.primitiveHeap + 4095) / 4096 + framesLeft w ≤
          (u.paging.primitiveHeap + 4095) / 4096 + 2 + framesLeft u.paging)
        (fun v n w start stop hInv _ hRun => ?_) (fun _ => ?_) hCreate
      · obtain ⟨hNext, hPages⟩ := pages_mapRegion hInv.1 hRun
        exact ⟨hNext, hPages.trans hInv.2⟩
      · have hPtr : (allocate 8192 u.paging.primitiveHeap).ptr =
            (u.paging.primitiveHeap + 4095) / 4096 * 4096 :=
          congrArg Allocation.ptr (allocate_eq (by omega))
        rw [hStarted.heap, hStarted.left, hPtr]
        exact ⟨⟨by omega, by omega⟩, by omega⟩
    omega

/-- The kernel's image with its heap, and five tables, ends in front of the end of the map. -/
theorem booted_kernelImage {heapMapping : Nat × Nat}
    (h : pagingInitialize (some heapMapping) kernelImage = some s) :
    Booted (some heapMapping) kernelImage s :=
  ⟨h, by decide, imageEnd_kernelImage,
    Nat.le_trans (initialMap_of_boot imageEnd_kernelImage h).2 (by decide)⟩

end Boot

/-! ## A table behind the map -/

/-- A page in front of the last one is one iteration. -/
theorem pageFaultHandlerOn_one {access : Access} (hDir : dir ≠ 0)
    (hLength : s.frameTable.length ≠ 0) (ha : a % 4096 = 0) (hLt : a + 4096 < 4294967296) :
    pageFaultHandlerOn access 0 a (some dir) s = mapPageOn access dir a s := by
  obtain ⟨k, hk⟩ := Nat.exists_eq_succ_of_ne_zero hLength
  have hTarget : target dir s = dir := if_neg hDir
  simp only [pageFaultHandlerOn, Nat.zero_mod, if_true, ha, Nat.sub_zero, Nat.mod_eq_of_lt hLt]
  rw [mapRegionOn, hTarget, hk, mapLoopOn, if_pos (by omega), Nat.mod_eq_of_lt hLt]
  cases mapPageOn access dir a s with
  | none => rfl
  | some t =>
    rw [Option.bind_some, mapLoopOn, if_neg (Nat.lt_irrefl _)]
    rfl

section Outside

variable {r : Allocation}

@[simp] theorem enterTable_tables_self (dir i : Nat) (r : Allocation) (s : PagingState) :
    ((enterTable dir i r s).directories dir).tables i = r.ptr := by
  simp only [enterTable, Function.update_self]

theorem enterTable_tables_of_ne (dir : Nat) {i j : Nat} (r : Allocation) (s : PagingState)
    (hne : j ≠ i) :
    ((enterTable dir i r s).directories dir).tables j = (s.directories dir).tables j := by
  simp only [enterTable, Function.update_self, Function.update_of_ne hne]

/-- The clearing of the first table behind the map faults, and the fault is given the frame that
comes next. -/
theorem access_outside (h : Kernel roots dirs s) (hDir : dir ∈ dirs) (hi : i ≠ 0)
    (hPtr : r.ptr = mappedRegion)
    (hPage : (lookup s s.pagingCurrentDirectory 512).isPresent = false)
    (hFind : s.frameTable.findFirst = some idx) :
    access ⟨dir, some dir⟩ 1 r.ptr (enterTable dir i r s) =
      some (writePage ((s.directories dir).tables 0, 512) idx (enterTable dir i r s)) ∧
    Reaches (writePage ((s.directories dir).tables 0, 512) idx (enterTable dir i r s)) dir
      mappedRegion := by
  have hFirst := (h.first dir hDir).1
  have hEntered : ReachesKernel (enterTable dir i r s) dir :=
    fun a ha ha' => (h.reaches hDir a ha ha').enterTable dir i r
  have hTable : ((enterTable dir i r s).directories dir).tables (mappedRegion / 4096 / 1024) =
      (s.directories dir).tables 0 := enterTable_tables_of_ne dir r s hi.symm
  have hFault : ¬ (translateIn (enterTable dir i r s) dir mappedRegion).isSome = true := by
    have hBefore : translateIn (enterTable dir i r s) dir mappedRegion =
        translateIn s dir mappedRegion := by
      simp only [translateIn, translate, enterTable_addresses]
      rfl
    rw [hBefore, translateIn_eq (h.walked dir hDir) h.enabled (by decide)]
    have hNot : (lookup s dir (mappedRegion / 4096)).isPresent = false :=
      (congrArg Page.isPresent (h.lookup_first hDir (by decide : 512 < 1024))).trans hPage
    simp [hNot]
  have hReaches : Reaches (writePage ((s.directories dir).tables 0, 512) idx
      (enterTable dir i r s)) dir mappedRegion := by
    obtain ⟨hAligned, hAddress⟩ := (h.walked dir hDir).addressed 0 (by decide) hFirst
    have hFrame := writePage_enteries_self ((s.directories dir).tables 0, 512) idx
      (enterTable dir i r s)
    refine .of_entry h.enabled (by decide) ?_ ?_
    · rw [writePage_directories, enterTable_addresses, hAddress]
      exact (tableAddress_eq hAligned).1
    · rw [writePage_directories, enterTable_addresses, h.firstTable hDir]
      exact congrArg Page.isPresent hFrame
  refine ⟨?_, hReaches⟩
  have hFound : (enterTable dir i r s).frameTable.findFirst = some idx := hFind
  have hHandler : mapPageOn (access ⟨dir, some dir⟩ 0) dir mappedRegion (enterTable dir i r s) =
      some (writePage ((s.directories dir).tables 0, 512) idx (enterTable dir i r s)) := by
    rw [mapPageOn_of_table hEntered (h.placed_dir hDir) (by decide) (hTable ▸ hFirst)
      (hTable ▸ h.placed_table hDir (by decide) hFirst),
      mapPage_of_table hFound (hTable ▸ hFirst), hTable]
    rfl
  have hLength : (enterTable dir i r s).frameTable.length ≠ 0 := by
    rw [show (enterTable dir i r s).frameTable.length = numberOfFrames from h.frames]
    decide
  rw [hPtr, access, if_neg hFault,
    pageFaultHandlerOn_one (h.below dir hDir).1 hLength (by decide) (by decide), hHandler,
    Option.bind_some]
  exact access_of_reaches hReaches

/-- The new table lies behind the map. Its own page and the page that it is made for are given the
same frame. -/
theorem pageFault_outside (h : Kernel roots dirs s) (hDir : dir ∈ dirs) (hTop : top % 4096 = 0)
    (hLt : top + 4096 < 4294967296)
    (hMissing : (s.directories dir).tables (top / 4096 / 1024) = 0)
    (hEnd : (s.primitiveHeap + 4095) / 4096 = 512)
    (hPage : (lookup s s.pagingCurrentDirectory 512).isPresent = false)
    (hFind : s.frameTable.findFirst = some idx) :
    ∃ t, pageFaultHandlerOn (access ⟨dir, some dir⟩ 1) 0 top (some dir) s = some t ∧
      ¬ Exclusive dirs t := by
  have hFirst := (h.first dir hDir).1
  have hSlot : top / 4096 / 1024 ≠ 0 := fun hZero => hFirst (hZero ▸ hMissing)
  have hNew : standartAllocator 4096 s.primitiveHeap = ⟨mappedRegion, mappedRegion, 0x201000⟩ := by
    rw [standartAllocator_eq (h.heapRoom (by decide)), hEnd]
  generalize hr : standartAllocator 4096 s.primitiveHeap = r at hNew
  have hPtr : r.ptr = mappedRegion := congrArg Allocation.ptr hNew
  have hPhys : r.phys = mappedRegion := congrArg Allocation.phys hNew
  generalize hi : top / 4096 / 1024 = i at hSlot hMissing
  have hTable : (s.directories dir).tables 0 + 4096 ≤ mappedRegion :=
    (h.placed_table hDir (by decide) hFirst).2
  have hne : (s.directories dir).tables 0 ≠ r.ptr := by omega
  obtain ⟨hCleared, hReaches⟩ := access_outside h hDir hSlot hPtr hPage hFind
  -- what the fault leaves, and the rest of the call
  generalize hw : writePage ((s.directories dir).tables 0, 512) idx (enterTable dir i r s) = w
    at hCleared hReaches
  have hAddresses : (w.directories dir).tableAddresses 0 / 4096 * 4096 =
      (s.directories dir).tables 0 := by
    rw [← hw, writePage_directories, enterTable_addresses, h.firstTable hDir]
  have hEntry : Reaches (enterAddress dir i r.phys (clearTable r.ptr w)) dir mappedRegion :=
    (hReaches.clearTable (hAddresses ▸ hne)).enterAddress hSlot dir r.phys
  have hDirectory : Reaches (clearTable r.ptr w) dir (dir + 4096 + 4 * i) := by
    obtain ⟨hLe, hLt'⟩ := h.placed_dir hDir
    have hBefore := h.reaches hDir (dir + 4096 + 4 * i) (by omega) (by omega)
    refine Reaches.clearTable ?_ (hAddresses ▸ hne)
    rw [← hw]
    exact (hBefore.enterTable dir i r).writePage _ idx
  refine ⟨writePage (r.ptr, r.phys % 1024) idx (enterAddress dir i r.phys (clearTable r.ptr w)),
    ?_, fun hExclusive => ?_⟩
  · have hLength : s.frameTable.length ≠ 0 := by
      rw [h.frames]
      decide
    have hLast : r.ptr + 4 * (r.phys % 1024) = mappedRegion := by
      rw [hPtr, hPhys]
      rfl
    rw [pageFaultHandlerOn_one (h.below dir hDir).1 hLength hTop hLt, mapPageOn,
      getPageOn_of_missing hr (h.reaches hDir) (h.placed_dir hDir) (by omega) (hi ▸ hMissing), hi,
      hCleared, Option.bind_some, access_of_reaches hDirectory, Option.map_some, Option.bind_some,
      hFind, Option.bind_some]
    dsimp only
    rw [hLast, access_of_reaches hEntry]
    rfl
  · have hTables : ∀ j,
        ((enterAddress dir i r.phys (clearTable r.ptr w)).directories dir).tables j =
          ((enterTable dir i r s).directories dir).tables j := by
      intro j
      rw [← hw]
      simp only [enterAddress, clearTable, Function.update_self, writePage_directories]
    have hOld : w.enteries ((s.directories dir).tables 0) 512 =
        (s.enteries ((s.directories dir).tables 0) 512).mapTo idx := by
      rw [← hw]
      exact writePage_enteries_self _ _ _
    have hKept : (enterAddress dir i r.phys (clearTable r.ptr w)).enteries
        ((s.directories dir).tables 0) 512 = w.enteries ((s.directories dir).tables 0) 512 := by
      simp only [enterAddress, clearTable, Function.update_of_ne hne]
    refine hne (hExclusive.own _ r.ptr 512 (r.phys % 1024)
      ⟨hFirst, dir, hDir, 0, by decide, ?_⟩ ⟨by rw [hPtr]; decide, dir, hDir, i, by omega, ?_⟩
      (by decide) (Nat.mod_lt _ (by decide)) ?_ ?_ ?_).1
    · rw [writePage_directories, hTables]
      exact enterTable_tables_of_ne dir r s hSlot.symm
    · rw [writePage_directories, hTables]
      exact enterTable_tables_self dir i r s
    · rw [writePage_enteries_of_ne idx _ (Or.inl hne), hKept, hOld]
      rfl
    · exact congrArg Page.isPresent (writePage_enteries_self (r.ptr, r.phys % 1024) idx _)
    · rw [writePage_enteries_of_ne idx _ (Or.inl hne), hKept, hOld]
      exact (congrArg Page.frame (writePage_enteries_self (r.ptr, r.phys % 1024) idx _)).symm

end Outside

/-- A fault for which there is a table's room keeps the map. -/
theorem keepsMap_fault {s : PagingSystem} (h : Kernel roots s.dirs s.paging) (hDir : d ≠ 0)
    (ha : a % 4096 = 0) (hLe : mappedRegion ≤ a) (hLt : a + 4096 < 4294967296)
    (hMissing : (s.paging.directories d).tables (a / 4096 / 1024) = 0)
    (hFits : (s.paging.primitiveHeap + 4095) / 4096 < 512) :
    KeepsMap s (.pageFault 0 a (some d)) := by
  constructor
  · refine (regions_iff h.heapInv _).mp ?_
    rw [PagingEvent.regions, pageFaultRegions_eq hDir ha hLt,
      getPageRegions_missing hMissing (h.heapRoom (by decide)), List.forall_mem_singleton]
    unfold Region.Mapped mappedRegion
    dsimp only
    omega
  · intro top hTop
    simp only [PagingEvent.tops, Nat.zero_mod, Option.isSome_some, and_self, if_true, ha,
      Nat.sub_zero, Nat.mod_eq_of_lt hLt, loopPages_one hLt, List.mem_singleton] at hTop
    exact Or.inr (hTop ▸ hLe)

/-- The faults up to the end of the map. -/
theorem run_faults_inside {s : PagingSystem} {k : Nat} (hKernel : Kernel roots s.dirs s.paging)
    (hDir : d ∈ s.dirs) (hn : n < 767) (hk : n < k) (h : Touched d k s.paging s.paging 0)
    (hFits : (s.paging.primitiveHeap + 4095) / 4096 + n ≤ 512) :
    ∃ t, Run (Guarded KernelStep KeepsMap) s (faults d n) t ∧ Touched d k s.paging t.paging n ∧
      t.dirs = s.dirs ∧ Kernel roots t.dirs t.paging ∧
      lookup t.paging t.paging.pagingCurrentDirectory 512 =
        lookup s.paging s.paging.pagingCurrentDirectory 512 := by
  have hne := (hKernel.below d hDir).1
  induction n with
  | zero => exact ⟨s, .refl, h, rfl, hKernel, rfl⟩
  | succ n ih =>
    obtain ⟨t, hRun, hTouched, hDirs, hNow, hPage⟩ := ih (by omega) (by omega) (by omega)
    obtain ⟨u, hFault, hNext⟩ := touched_succ hne (by omega) (by omega) hTouched
    have hSlot : 0x400000 * (n + 1) / 4096 / 1024 = n + 1 := by omega
    have hMissing := hTouched.missing (n + 1) (by omega) (by omega)
    have hHeap := hTouched.heap
    have hKnown : ∀ e ∈ some d, Known t e := fun e he => by
      cases he
      exact Or.inr (hDirs ▸ hDir)
    have hStep := hNow.kernelStep
      (keepsMap_fault hNow hne (by omega) (by unfold mappedRegion; omega) (by omega)
        (by rw [hSlot]; exact hMissing) (by omega))
      (.pageFault (by omega) hKnown hFault)
    have hMapped := (pageFault_eq hne (by omega) (by omega)).symm.trans hFault
    refine ⟨⟨u, t.dirs⟩, ?_, hNext, hDirs, (hNow.step hStep).2, ?_⟩
    · rw [faults_succ]
      exact .tail hRun hStep
    · rw [← hPage, (mapPage_sameRoots hMapped).current]
      exact hNow.first_mapPage (hDirs ▸ hDir) (by omega) (by decide) (by omega) hMapped

/-- The kernel is booted with room for many tables. -/
theorem exists_kernel : ∃ s,
    pagingInitialize (some (0xC0000000, 0xC1000000)) kernelImage = some s ∧
      Kernel (PagingSystem.boot s).dirs (PagingSystem.boot s).dirs (PagingSystem.boot s).paging ∧
      ((PagingSystem.boot s).paging.primitiveHeap + 4095) / 4096 ≤ 291 ∧
      36352 ≤ framesLeft (PagingSystem.boot s).paging := by
  obtain ⟨u, v, hBoots⟩ := boots imageEnd_kernelImage (some (0xC0000000, 0xC1000000))
  have hEnd := (initialMap_of_boot imageEnd_kernelImage hBoots.result).2
  have hHeap : (enablePaging v).primitiveHeap ≤ 0x123000 := hEnd.trans (by decide)
  refine ⟨_, hBoots.result, kernel_boot (booted_kernelImage hBoots.result), ?_, hBoots.frames⟩
  change ((enablePaging v).primitiveHeap + 4095) / 4096 ≤ 291
  omega

/-- A page of the first table takes nothing. -/
theorem keepsMap_low {u : PagingSystem} (h : Kernel roots u.dirs u.paging) :
    KeepsMap u (.mapRegion 0x5000 0x6000 0) := by
  have hTops : PagingEvent.tops u.paging (.mapRegion 0x5000 0x6000 0) = [0x5000] :=
    loopPages_one (by decide)
  have hTable : PagingEvent.tables u.paging (.mapRegion 0x5000 0x6000 0) 0 ≠ 0 :=
    (h.first _ (h.roots_mem _ h.current)).1
  constructor
  · refine Or.inl ?_
    rw [PagingEvent.asked, hTops, List.take_succ_cons, List.take_nil,
      missing_cons_of_table [] hTable, missing_nil]
    rfl
  · rw [hTops, List.forall_mem_singleton]
    exact Or.inl (by decide)

/-- A process is started with its stack, and then a page of the low memory is mapped again. -/
theorem exclusive_of_run_process : ∃ s t,
    pagingInitialize (some (0xC0000000, 0xC1000000)) kernelImage = some s ∧
      Run (Guarded KernelStep KeepsMap) (.boot s) [withStack, .mapRegion 0x5000 0x6000 0] t ∧
      Exclusive t.dirs t.paging := by
  obtain ⟨s, hInit, hKernel, hPages, hFrames⟩ := exists_kernel
  obtain ⟨d, t, hFirst, -, hLeft, -⟩ := exists_withStack hKernel (by omega) (by omega)
  obtain ⟨hStep, hNext⟩ := hKernel.step hFirst
  obtain ⟨v, hMap, -⟩ := mapRegion_isSome (s := t) standartAllocator 0 (p := 5) (n := 1) (k := 0)
    (show 1 ≤ framesLeft t by omega) (by decide)
  have hSecond := hNext.kernelStep (keepsMap_low hNext)
    (.mapRegion (by decide) (by decide) (Or.inl rfl) hMap)
  have hRun := Run.tail (Run.single hFirst) hSecond
  exact ⟨s, _, hInit, hRun, exclusive_of_run (booted_kernelImage hInit) hRun⟩

/-- The kernel's process faults in one empty slot after another, until the map is full and once
more. -/
theorem not_exclusive_faults : ∃ s t,
    pagingInitialize (some (0xC0000000, 0xC1000000)) kernelImage = some s ∧
      Run KernelStep (.boot s)
        (faults s.kernelDirectory (513 - (s.primitiveHeap + 4095) / 4096)) t ∧
      ¬ Exclusive t.dirs t.paging := by
  obtain ⟨u, v, hBoots⟩ := boots imageEnd_kernelImage (some (0xC0000000, 0xC1000000))
  have hBooted := booted_kernelImage hBoots.result
  have hKernel := kernel_boot hBooted
  have hStart := hKernel.start_le
  have hEnd := hBooted.end_le
  unfold imageStart at hStart
  unfold mappedRegion at hEnd
  have hDir : v.kernelDirectory ∈ (PagingSystem.boot (enablePaging v)).dirs :=
    List.mem_cons_of_mem _ List.mem_cons_self
  have hTouched : Touched v.kernelDirectory 36352 (enablePaging v) (enablePaging v) 0 :=
    ⟨rfl, hBoots.room, hBoots.frames, fun i => hBoots.tables_gap⟩
  obtain ⟨n, hn⟩ : ∃ n, ((enablePaging v).primitiveHeap + 4095) / 4096 + n = 512 :=
    ⟨_, Nat.add_sub_of_le (by omega)⟩
  have hFaults : 513 - ((enablePaging v).primitiveHeap + 4095) / 4096 = n + 1 := by omega
  obtain ⟨t, hRun, hFull, hDirs, hNow, hPage⟩ := run_faults_inside hKernel hDir (by omega)
    (by omega) hTouched (Nat.le_of_eq hn)
  have hSlot : 0x400000 * (n + 1) / 4096 / 1024 = n + 1 := by omega
  have hFrames := hFull.frames
  obtain ⟨idx, hFind⟩ : ∃ idx, t.paging.frameTable.findFirst = some idx :=
    firstFree_isSome (show 0 < framesLeft t.paging by omega)
  have hMissing := hFull.missing (n + 1) (by omega) (by omega)
  have hGap : (lookup t.paging t.paging.pagingCurrentDirectory 512).isPresent = false := by
    have hSame := hKernel.lookup_first hDir (by decide : 512 < 1024)
    rw [hBoots.lookup_gap (by decide) (by decide)] at hSame
    exact congrArg Page.isPresent (hPage.trans hSame.symm)
  have hDirNow : v.kernelDirectory ∈ t.dirs := hDirs ▸ hDir
  obtain ⟨w, hFault, hShared⟩ := pageFault_outside hNow hDirNow (by omega) (by omega)
    (hSlot.symm ▸ hMissing) (hFull.heap.trans hn) hGap hFind
  have hKnown : ∀ e ∈ some v.kernelDirectory, Known t e := fun e he => by
    cases he
    exact Or.inr hDirNow
  refine ⟨_, ⟨w, t.dirs⟩, hBoots.result, ?_, hShared⟩
  rw [hFaults, faults_succ]
  exact .tail hRun.of_guarded (.pageFault ⟨hDirNow, hKnown⟩ (by omega) hKnown hFault)

end Juos.Paging
