import Juos.Machine.FirstFit

/-!
# Page tables and frames

The code of `paging.cpp` and `frame_table.cpp` over the objects it works on: page directories and
page tables by the address they were allocated at, and the table of physical frames. An address
is a number below `2 ^ 32`; the bit fields of `Page` are kept one by one.

`mapRegion` is partial. `none` is the panic that is raised when no frame is left, which also ends
a loop whose upper bound can never be reached.
-/

namespace Juos.Paging

open Machine

/-! ## Frames -/

structure FrameTable where
  length : Nat
  isTaken : Nat → Bool

namespace FrameTable

/-- The constructor: every frame is free. -/
def create (length : Nat) : FrameTable := ⟨length, fun _ => false⟩

def findFirst (t : FrameTable) : Option Nat := firstFree t.isTaken t.length

def setAtIndex (t : FrameTable) (idx : Nat) : FrameTable :=
  { t with isTaken := Function.update t.isTaken idx true }

def freeAtIndex (t : FrameTable) (idx : Nat) : FrameTable :=
  { t with isTaken := Function.update t.isTaken idx false }

end FrameTable

/-! ## Tables and directories -/

structure Page where
  isPresent : Bool
  rw : Bool
  isUser : Bool
  wasAccessed : Bool
  wasWritten : Bool
  reserved : BitVec 4
  flags : BitVec 3
  frameAddr : BitVec 20
  deriving DecidableEq, Repr

/-- An entry of a table that was cleared. -/
def Page.zero : Page := ⟨false, false, false, false, false, 0, 0, 0⟩

/-- The index of the frame an entry holds. -/
def Page.frame (p : Page) : Nat := p.frameAddr.toNat

/-- What `_map_virt_to_phys` writes to an entry; the frame number is cut to 20 bits. -/
def Page.mapTo (p : Page) (idx : Nat) : Page :=
  { p with isPresent := true, isUser := false, rw := false, frameAddr := BitVec.ofNat 20 idx }

theorem Page.frame_lt (p : Page) : p.frame < 1048576 := p.frameAddr.isLt

theorem Page.frame_mapTo (p : Page) {idx : Nat} (h : idx < 1048576) : (p.mapTo idx).frame = idx :=
  (BitVec.toNat_ofNat idx 20).trans (Nat.mod_eq_of_lt h)

structure PageDirectory where
  tables : Nat → Nat
  tableAddresses : Nat → Nat

def PageDirectory.zero : PageDirectory := ⟨fun _ => 0, fun _ => 0⟩

structure PagingState where
  /-- `__primitive_heap`, the end of the memory that was handed out -/
  primitiveHeap : Nat
  frameTable : FrameTable
  /-- the entries of the table at an address -/
  enteries : Nat → Nat → Page
  /-- the directory at an address -/
  directories : Nat → PageDirectory
  pagingCurrentDirectory : Nat
  kernelDirectory : Nat
  kernelSize : Nat
  baseKernelTablesSize : Nat
  /-- the directory whose `table_addresses` are loaded -/
  cr3 : Nat
  pagingEnabled : Bool

/-! ## The primitive heap -/

/-- What an allocator returns, the physical address it reports, and the heap it leaves. -/
structure Allocation where
  ptr : Nat
  phys : Nat
  primitiveHeap : Nat

/-- A function that takes a size and the primitive heap. -/
abbrev MemoryAlloctor := Nat → Nat → Allocation

def allocateWPointer (n primitiveHeap : Nat) (alligned : Bool) : Allocation :=
  let heap :=
    if alligned ∧ primitiveHeap % 4096 ≠ 0 then
      (primitiveHeap - primitiveHeap % 4096 + 4096) % 4294967296
    else primitiveHeap
  ⟨heap, heap, (heap + n) % 4294967296⟩

def standartAllocator : MemoryAlloctor := fun n heap => allocateWPointer n heap true

def allocate (n primitiveHeap : Nat) : Allocation := allocateWPointer n primitiveHeap true

/-! ## Mapping -/

/-- A new table for the slot `tableIdx` of `dir`, all zeros. -/
def newTable (dir tableIdx : Nat) (r : Allocation) (s : PagingState) : PagingState :=
  { s with
    primitiveHeap := r.primitiveHeap
    enteries := Function.update s.enteries r.ptr fun _ => .zero
    directories := Function.update s.directories dir
      { tables := Function.update (s.directories dir).tables tableIdx r.ptr
        tableAddresses :=
          Function.update (s.directories dir).tableAddresses tableIdx (r.phys ||| 7) } }

/-- `_get_page`: the table and the index of the entry for `addr`, `none` for a null pointer. -/
def getPage (addr dir : Nat) (makePage : Bool) (allocator : MemoryAlloctor) (s : PagingState) :
    Option (Nat × Nat) × PagingState :=
  let pageIdx := addr / 4096
  let tableIdx := pageIdx / 1024
  let table := (s.directories dir).tables tableIdx
  if table ≠ 0 then (some (table, pageIdx % 1024), s)
  else if makePage then
    let r := allocator 4096 s.primitiveHeap
    -- the entry is chosen by the address of the new table, not by `addr`
    (some (r.ptr, r.phys % 1024), newTable dir tableIdx r s)
  else (none, s)

/-- Write the entry at `loc` and take its frame. -/
def writePage (loc : Nat × Nat) (idx : Nat) (s : PagingState) : PagingState :=
  { s with
    enteries := Function.update s.enteries loc.1
      (Function.update (s.enteries loc.1) loc.2 ((s.enteries loc.1 loc.2).mapTo idx))
    frameTable := s.frameTable.setAtIndex idx }

/-- The body of the loop of `_map_virt_to_phys`. -/
def mapPage (allocator : MemoryAlloctor) (dir top : Nat) (s : PagingState) : Option PagingState :=
  match s.frameTable.findFirst, getPage top dir true allocator s with
  | some idx, (some loc, s) => some (writePage loc idx s)
  | _, _ => none

/-- The loop, which may be taken `fuel` times, with the number of pages it creates. -/
def mapLoop (allocator : MemoryAlloctor) (dir stop : Nat) :
    Nat → Nat → PagingState → Option (Nat × PagingState)
  | 0, _, _ => none
  | fuel + 1, top, s =>
    if top < stop then
      (mapPage allocator dir top s).bind fun s =>
        (mapLoop allocator dir stop fuel ((top + 4096) % 4294967296) s).map fun r =>
          (r.1 + 1, r.2)
    else some (0, s)

/-- `_map_virt_to_phys`. Each iteration takes a frame, so one more than there are frames are
enough for the loop to end or to panic. -/
def mapVirtToPhys (start stop dir : Nat) (allocator : MemoryAlloctor) (s : PagingState) :
    Option (Nat × PagingState) :=
  mapLoop allocator dir stop (s.frameTable.length + 1) start s

/-- The directory that `map_region` works on. -/
def target (dir : Nat) (s : PagingState) : Nat := if dir = 0 then s.pagingCurrentDirectory else dir

def mapRegion (start stop : Nat) (allocator : MemoryAlloctor) (dir : Nat) (s : PagingState) :
    Option (Nat × PagingState) :=
  mapVirtToPhys start stop (target dir s) allocator s

/-- The handler maps the page of the faulting address for the process that runs next; without a
process, or when the page was present, it panics. -/
def pageFaultHandler (errCode faultingAddress : Nat) (directory : Option Nat) (s : PagingState) :
    Option PagingState :=
  match directory with
  | some dir =>
    if errCode % 2 = 0 then
      let baseFault := faultingAddress - faultingAddress % 4096
      let topFault := (baseFault + 4096) % 4294967296
      (mapRegion baseFault topFault standartAllocator dir s).map Prod.snd
    else none
  | none => none

/-! ## Directories -/

/-- The first half of `create_directory`: a cleared directory is given the first tables of the
current one. -/
def newDirectory (s : PagingState) : PagingState :=
  let r := allocate 8192 s.primitiveHeap
  let cleared := Function.update s.directories r.ptr .zero
  let current := cleared s.pagingCurrentDirectory
  { s with
    primitiveHeap := r.primitiveHeap
    directories := Function.update cleared r.ptr
      { tables := fun i => if i < s.baseKernelTablesSize then current.tables i else 0
        tableAddresses :=
          fun i => if i < s.baseKernelTablesSize then current.tableAddresses i else 0 } }

def createDirectory (procMappings : List (Nat × Nat)) (s : PagingState) :
    Option (Nat × PagingState) :=
  let dir := (allocate 8192 s.primitiveHeap).ptr
  (procMappings.foldlM (fun s mapping =>
    (mapRegion mapping.1 mapping.2 standartAllocator dir s).map Prod.snd)
    (newDirectory s)).map fun s => (dir, s)

abbrev numberOfFrames : Nat := 40960

/-- `paging::Initialize` up to its first mapping: both directories and the frame table. -/
def setUp (s : PagingState) : PagingState :=
  let current := allocate 8192 s.primitiveHeap
  let kernel := allocate 8192 current.primitiveHeap
  let frames := allocate numberOfFrames kernel.primitiveHeap
  { s with
    primitiveHeap := frames.primitiveHeap
    pagingCurrentDirectory := current.ptr
    kernelDirectory := kernel.ptr
    directories := Function.update s.directories kernel.ptr .zero
    frameTable := .create numberOfFrames
    kernelSize := frames.primitiveHeap }

/-- The rest of it after the mappings. The directory that is loaded last is the copy. -/
def enablePaging (s : PagingState) : PagingState :=
  { s with
    directories :=
      Function.update s.directories s.pagingCurrentDirectory (s.directories s.kernelDirectory)
    cr3 := s.pagingCurrentDirectory
    pagingEnabled := true }

/-- The number of tables that every directory shares. -/
def setBaseTables (pagesCreated : Nat) (s : PagingState) : PagingState :=
  let numTables := pagesCreated / 1024
  { s with baseKernelTablesSize := if numTables = 0 then 1 else numTables }

/-- The bounds of the heap that is mapped are constants; only whether there are settings matters. -/
def mapHeap (heapMapping : Option (Nat × Nat)) (s : PagingState) : Option PagingState :=
  match heapMapping with
  | some _ =>
    (mapRegion 0xC0000000 0xC1000000 standartAllocator s.kernelDirectory s).map Prod.snd
  | none => some s

/-- `paging::Initialize` -/
def pagingInitialize (heapMapping : Option (Nat × Nat)) (s : PagingState) : Option PagingState :=
  (mapRegion 0 0x200000 standartAllocator (setUp s).kernelDirectory (setUp s)).bind fun r =>
    (mapHeap heapMapping (setBaseTables r.1 r.2)).map enablePaging

/-- The frame numbers that `~PageDirectory` frees, in order: those of all 1024 tables, read at
address 0 for a null table. -/
def freed (dir : Nat) (s : PagingState) : List Nat :=
  (List.range 1024).flatMap fun i => (List.range 1024).map fun j =>
    (s.enteries ((s.directories dir).tables i) j).frame

/-- `~PageDirectory` -/
def destroy (dir : Nat) (s : PagingState) : PagingState :=
  { s with frameTable := (freed dir s).foldl FrameTable.freeAtIndex s.frameTable }

end Juos.Paging
