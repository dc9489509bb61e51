import Juos.Machine.Run
import Juos.Paging.Boot
import Mathlib.Algebra.GroupWithZero.Nat

/-!
# Every frame has one owner

`PagingSystem` is the paging state with the directories that exist, and `PagingStep` what the rest
of the kernel does to it. `Exclusive` says that in the tables which these directories lead to, no
two present entries hold the same frame, and that every frame held is taken and lies inside the
frame table. A table counts once, however many directories share it.

The memory of directories and tables is taken to be mapped and to be shared with nothing: no call is
interrupted by a fault of its own, and a new table may even take the place of an old one. When that
is so is the subject of `Faults`. What carries the proof here is that an entry is only ever given a
frame that was free.
-/

namespace Juos.Paging

open Machine

/-! ## Runs of the paging code -/

inductive PagingEvent where
  | mapRegion (start stop dir : Nat)
  | createDirectory (procMappings : List (Nat × Nat))
  | pageFault (errCode faultingAddress : Nat) (directory : Option Nat)
  deriving DecidableEq, Repr

structure PagingSystem where
  paging : PagingState
  /-- the directories that have been created, and not destroyed -/
  dirs : List Nat

/-- The directories a call may be given: null stands for the current one. -/
def Known (s : PagingSystem) (dir : Nat) : Prop := dir = 0 ∨ dir ∈ s.dirs

inductive PagingStep : PagingSystem → PagingEvent → PagingSystem → Prop
  | mapRegion {s : PagingSystem} {start stop dir n : Nat} {t : PagingState}
      (hStart : start < 4294967296) (hStop : stop < 4294967296) (hDir : Known s dir)
      (hRun : Paging.mapRegion start stop standartAllocator dir s.paging = some (n, t)) :
      PagingStep s (.mapRegion start stop dir) ⟨t, s.dirs⟩
  | createDirectory {s : PagingSystem} {procMappings : List (Nat × Nat)} {dir : Nat}
      {t : PagingState}
      (hMappings : ∀ e ∈ procMappings, e.1 < 4294967296 ∧ e.2 < 4294967296)
      (hRun : Paging.createDirectory procMappings s.paging = some (dir, t)) :
      PagingStep s (.createDirectory procMappings) ⟨t, dir :: s.dirs⟩
  | pageFault {s : PagingSystem} {errCode faultingAddress : Nat} {directory : Option Nat}
      {t : PagingState} (hAddress : faultingAddress < 4294967296)
      (hDir : ∀ dir ∈ directory, Known s dir)
      (hRun : pageFaultHandler errCode faultingAddress directory s.paging = some t) :
      PagingStep s (.pageFault errCode faultingAddress directory) ⟨t, s.dirs⟩

/-- The system after `paging::Initialize`. -/
def PagingSystem.boot (s : PagingState) : PagingSystem :=
  ⟨s, [s.pagingCurrentDirectory, s.kernelDirectory]⟩

/-- The table at `a` is one that a directory of `dirs` leads to. -/
def InUse (dirs : List Nat) (s : PagingState) (a : Nat) : Prop :=
  a ≠ 0 ∧ ∃ d ∈ dirs, ∃ i < 1024, (s.directories d).tables i = a

variable {A : MemoryAlloctor} {dirs : List Nat} {s t : PagingState} {dir start stop n idx : Nat}

theorem inUse_newTable {i a : Nat} {r : Allocation} (h : InUse dirs (newTable dir i r s) a) :
    InUse dirs s a ∨ a = r.ptr := by
  obtain ⟨ha, d, hd, k, hk, hTable⟩ := h
  by_cases hdd : d = dir
  · subst hdd
    by_cases hki : k = i
    · subst hki
      rw [newTable_tables_self] at hTable
      exact Or.inr hTable.symm
    · rw [newTable_tables_of_ne hki] at hTable
      exact Or.inl ⟨ha, d, hd, k, hk, hTable⟩
  · rw [newTable_of_ne hdd] at hTable
    exact Or.inl ⟨ha, d, hd, k, hk, hTable⟩

/-! ## The calls by their mappings -/

theorem pageFault_cases {errCode addr : Nat} {directory : Option Nat}
    (h : pageFaultHandler errCode addr directory s = some t) :
    ∃ d n, directory = some d ∧ mapRegion (addr - addr % 4096)
      ((addr - addr % 4096 + 4096) % 4294967296) standartAllocator d s = some (n, t) := by
  unfold pageFaultHandler at h
  cases directory with
  | none => cases h
  | some d =>
    simp only at h
    split at h
    · obtain ⟨r, hRun, rfl⟩ := Option.map_eq_some_iff.mp h
      exact ⟨d, r.1, rfl, hRun⟩
    · cases h

/-- What the mappings of a new directory preserve, the whole call does. -/
theorem createDirectory_invariant {I : PagingState → Prop} {mappings : List (Nat × Nat)}
    (hStep : ∀ s n t start stop, I s → (start, stop) ∈ mappings →
      mapRegion start stop standartAllocator dir s = some (n, t) → I t)
    (hNew : dir = (allocate 8192 s.primitiveHeap).ptr → I (newDirectory s))
    (h : createDirectory mappings s = some (dir, t)) : I t := by
  obtain ⟨u, hFold, hEq⟩ := Option.map_eq_some_iff.mp h
  cases hEq
  refine foldlM_invariant (fun v e w he hv hMapping => ?_) hFold (hNew rfl)
  obtain ⟨⟨n, w⟩, hRun, rfl⟩ := Option.map_eq_some_iff.mp hMapping
  exact hStep v n w e.1 e.2 hv he hRun

@[simp] theorem newDirectory_enteries (s : PagingState) :
    (newDirectory s).enteries = s.enteries := by
  rw [newDirectory]

@[simp] theorem newDirectory_frameTable (s : PagingState) :
    (newDirectory s).frameTable = s.frameTable := by
  rw [newDirectory]

theorem newDirectory_sameRoots (s : PagingState) : SameRoots s (newDirectory s) := by
  constructor <;> rw [newDirectory]

theorem createDirectory_sameRoots {mappings : List (Nat × Nat)}
    (h : createDirectory mappings s = some (dir, t)) : SameRoots s t :=
  createDirectory_invariant (I := SameRoots s)
    (fun _ _ _ _ _ hSame _ hRun => hSame.trans (mapRegion_sameRoots hRun))
    (fun _ => newDirectory_sameRoots s) h

theorem newDirectory_of_ne {d : Nat} (hne : d ≠ (allocate 8192 s.primitiveHeap).ptr) :
    (newDirectory s).directories d = s.directories d := by
  simp only [newDirectory, Function.update_of_ne hne]

theorem newDirectory_tables (s : PagingState) (i : Nat) :
    ((newDirectory s).directories (allocate 8192 s.primitiveHeap).ptr).tables i =
      if i < s.baseKernelTablesSize ∧
          s.pagingCurrentDirectory ≠ (allocate 8192 s.primitiveHeap).ptr then
        (s.directories s.pagingCurrentDirectory).tables i
      else 0 := by
  simp only [newDirectory, Function.update_self]
  by_cases hi : i < s.baseKernelTablesSize
  · by_cases hne : s.pagingCurrentDirectory = (allocate 8192 s.primitiveHeap).ptr
    · rw [if_pos hi, if_neg (fun hBoth => hBoth.2 hne), hne, Function.update_self]
      rfl
    · rw [if_pos hi, if_pos ⟨hi, hne⟩, Function.update_of_ne hne]
  · rw [if_neg hi, if_neg (fun hBoth => hi hBoth.1)]

theorem inUse_newDirectory {a : Nat} (hCurrent : s.pagingCurrentDirectory ∈ dirs)
    (h : InUse ((allocate 8192 s.primitiveHeap).ptr :: dirs) (newDirectory s) a) :
    InUse dirs s a := by
  obtain ⟨ha, d, hd, i, hi, hTable⟩ := h
  rcases List.mem_cons.mp hd with rfl | hOld
  · rw [newDirectory_tables] at hTable
    split at hTable
    · exact ⟨ha, _, hCurrent, i, hi, hTable⟩
    · exact absurd hTable.symm ha
  · by_cases hdd : d = (allocate 8192 s.primitiveHeap).ptr
    · rw [hdd, newDirectory_tables] at hTable
      split at hTable
      · exact ⟨ha, _, hCurrent, i, hi, hTable⟩
      · exact absurd hTable.symm ha
    · rw [newDirectory_of_ne hdd] at hTable
      exact ⟨ha, d, hOld, i, hi, hTable⟩

/-- What `paging::Initialize` establishes before the first mapping, and its mappings keep, holds
of the kernel's directory when the copy is made. -/
theorem pagingInitialize_invariant {I : PagingState → Prop} {heapMapping : Option (Nat × Nat)}
    (hSetUp : I (setUp s))
    (hStep : ∀ u n v start stop, I u →
      mapRegion start stop standartAllocator u.kernelDirectory u = some (n, v) → I v)
    (hBase : ∀ u n, I u → I (setBaseTables n u))
    (h : pagingInitialize heapMapping s = some t) : ∃ u, I u ∧ t = enablePaging u := by
  obtain ⟨⟨n, v⟩, hKernel, hRest⟩ := Option.bind_eq_some_iff.mp h
  obtain ⟨u, hHeap, rfl⟩ := Option.map_eq_some_iff.mp hRest
  have hFirst := hBase v n (hStep _ _ _ _ _ hSetUp hKernel)
  refine ⟨u, ?_, rfl⟩
  cases heapMapping with
  | none =>
    cases hHeap
    exact hFirst
  | some m =>
    obtain ⟨⟨k, w⟩, hRun, rfl⟩ := Option.map_eq_some_iff.mp hHeap
    exact hStep _ _ _ _ _ hFirst hRun

theorem not_inUse_setUp {a : Nat} : ¬ InUse [(setUp s).kernelDirectory] (setUp s) a := by
  rintro ⟨ha, d, hd, i, -, hTable⟩
  rw [List.mem_singleton.mp hd, setUp_tables] at hTable
  exact ha hTable.symm

theorem inUse_enablePaging {a : Nat}
    (h : InUse [s.pagingCurrentDirectory, s.kernelDirectory] (enablePaging s) a) :
    InUse [s.kernelDirectory] s a := by
  obtain ⟨ha, d, hd, i, hi, hTable⟩ := h
  rw [enablePaging_directories hd] at hTable
  exact ⟨ha, s.kernelDirectory, List.mem_singleton_self _, i, hi, hTable⟩

/-! ## What every call keeps -/

/-- `I` speaks of the tables in use and of the frame table only, holds when there are no tables,
and is kept by one iteration of the mapping loop. -/
structure Kept (I : List Nat → PagingState → Prop) : Prop where
  of_inUse : ∀ {dirs dirs' : List Nat} {s t : PagingState}, I dirs s →
    t.enteries = s.enteries → t.frameTable = s.frameTable →
    (∀ a, InUse dirs' t a → InUse dirs s a) → I dirs' t
  empty : ∀ {dirs : List Nat} {s : PagingState}, (∀ a, ¬ InUse dirs s a) →
    s.frameTable = .create numberOfFrames → I dirs s
  mapPage : ∀ {dirs : List Nat} {s t : PagingState} {dir top : Nat}, I dirs s →
    mapPage standartAllocator dir top s = some t → I dirs t

/-- The directories that are always there. -/
structure Rooted (s : PagingSystem) : Prop where
  current : s.paging.pagingCurrentDirectory ∈ s.dirs
  kernel : s.paging.kernelDirectory ∈ s.dirs

theorem Rooted.of_sameRoots {s : PagingSystem} (h : Rooted s) (hSame : SameRoots s.paging t) :
    Rooted ⟨t, s.dirs⟩ := by
  refine ⟨?_, ?_⟩
  · change t.pagingCurrentDirectory ∈ s.dirs
    rw [hSame.current]
    exact h.current
  · change t.kernelDirectory ∈ s.dirs
    rw [hSame.kernel]
    exact h.kernel

namespace Kept

variable {I : List Nat → PagingState → Prop}

theorem mapRegion (hI : Kept I) (h : I dirs s)
    (hRun : Paging.mapRegion start stop standartAllocator dir s = some (n, t)) : I dirs t :=
  mapLoop_invariant (fun _ _ _ hInv hPage => hI.mapPage hInv hPage) hRun h

theorem boot (hI : Kept I) {heapMapping : Option (Nat × Nat)}
    (h : pagingInitialize heapMapping s = some t) :
    I (PagingSystem.boot t).dirs (PagingSystem.boot t).paging := by
  obtain ⟨u, hInv, rfl⟩ := pagingInitialize_invariant
    (I := fun u => I [u.kernelDirectory] u)
    (hI.empty (fun _ => not_inUse_setUp) setUp_frameTable)
    (fun u n v start stop hu hRun => by
      rw [(mapRegion_sameRoots hRun).kernel]
      exact hI.mapRegion hu hRun)
    (fun u n hu => hI.of_inUse hu rfl rfl fun _ ha => ha) h
  have hBoth : I [u.pagingCurrentDirectory, u.kernelDirectory] (enablePaging u) :=
    hI.of_inUse hInv rfl rfl fun _ => inUse_enablePaging
  exact hBoth

theorem step (hI : Kept I) {s t : PagingSystem} {e : PagingEvent} (hRooted : Rooted s)
    (h : I s.dirs s.paging) (hStep : PagingStep s e t) : Rooted t ∧ I t.dirs t.paging := by
  cases hStep with
  | mapRegion _ _ _ hRun =>
    exact ⟨hRooted.of_sameRoots (mapRegion_sameRoots hRun), hI.mapRegion h hRun⟩
  | pageFault _ _ hRun =>
    obtain ⟨d, n, -, hRun⟩ := pageFault_cases hRun
    exact ⟨hRooted.of_sameRoots (mapRegion_sameRoots hRun), hI.mapRegion h hRun⟩
  | @createDirectory mappings d t _ hRun =>
    have hInv : I (d :: s.dirs) t := createDirectory_invariant (I := fun u => I (d :: s.dirs) u)
      (fun u n v start stop hu _ hRun => hI.mapRegion hu hRun)
      (fun hEq => by
        subst hEq
        exact hI.of_inUse h (newDirectory_enteries _) (newDirectory_frameTable _)
          fun _ => inUse_newDirectory hRooted.current) hRun
    have hOld := hRooted.of_sameRoots (createDirectory_sameRoots hRun)
    exact ⟨⟨List.mem_cons_of_mem _ hOld.current, List.mem_cons_of_mem _ hOld.kernel⟩, hInv⟩

/-- What is kept holds after every run. -/
theorem run (hI : Kept I) {heapMapping : Option (Nat × Nat)} {t : PagingSystem}
    {es : List PagingEvent} {s₀ : PagingState} (hInit : pagingInitialize heapMapping s₀ = some s)
    (hRun : Run PagingStep (.boot s) es t) : Rooted t ∧ I t.dirs t.paging := by
  refine hRun.invariant (I := fun u => Rooted u ∧ I u.dirs u.paging) ⟨⟨?_, ?_⟩, hI.boot hInit⟩
    fun u e v hu hStep => hI.step hu.1 hu.2 hStep
  · exact List.mem_cons_self
  · exact List.mem_cons_of_mem _ (List.mem_singleton_self _)

end Kept

/-! ## Runs exist -/

/-- Regions of whole pages, each given by its first page and the number of its pages. -/
def pages (mappings : List (Nat × Nat)) : List (Nat × Nat) :=
  mappings.map fun m => (4096 * m.1, 4096 * (m.1 + m.2))

theorem createDirectory_isSome {k : Nat} (mappings : List (Nat × Nat))
    (h : (mappings.map Prod.snd).sum + k ≤ freeCount s.frameTable.isTaken s.frameTable.length)
    (hLt : ∀ m ∈ mappings, 4096 * (m.1 + m.2) < 4294967296) :
    ∃ t, createDirectory (pages mappings) s = some ((allocate 8192 s.primitiveHeap).ptr, t) ∧
      k ≤ freeCount t.frameTable.isTaken t.frameTable.length := by
  unfold createDirectory
  rw [← newDirectory_frameTable s] at h
  generalize newDirectory s = u at h
  induction mappings generalizing u with
  | nil => exact ⟨u, rfl, by simpa using h⟩
  | cons m mappings ih =>
    rw [List.map_cons, List.sum_cons, Nat.add_assoc] at h
    obtain ⟨v, hRun, hLeft⟩ := mapRegion_isSome standartAllocator
      (allocate 8192 s.primitiveHeap).ptr h (hLt m List.mem_cons_self)
    obtain ⟨t, hFold, hRest⟩ := ih (fun e he => hLt e (List.mem_cons_of_mem _ he)) v hLeft
    refine ⟨t, ?_, hRest⟩
    simp only [pages, List.map_cons, List.foldlM_cons, hRun, Option.map_some, Option.bind_eq_bind,
      Option.bind_some] at hFold ⊢
    exact hFold

/-! ## Every frame has one owner -/

structure Exclusive (dirs : List Nat) (s : PagingState) : Prop where
  own : ∀ a b i j, InUse dirs s a → InUse dirs s b → i < 1024 → j < 1024 →
    (s.enteries a i).isPresent = true → (s.enteries b j).isPresent = true →
    (s.enteries a i).frame = (s.enteries b j).frame → a = b ∧ i = j
  taken : ∀ a i, InUse dirs s a → i < 1024 → (s.enteries a i).isPresent = true →
    s.frameTable.isTaken (s.enteries a i).frame = true ∧
      (s.enteries a i).frame < s.frameTable.length

/-- Less in use, the same entries: nothing to prove. -/
theorem Exclusive.of_inUse {dirs' : List Nat} (h : Exclusive dirs s)
    (hEnteries : t.enteries = s.enteries) (hFrames : t.frameTable = s.frameTable)
    (hUse : ∀ a, InUse dirs' t a → InUse dirs s a) : Exclusive dirs' t := by
  constructor
  · intro a b i j ha hb
    rw [hEnteries]
    exact h.own a b i j (hUse a ha) (hUse b hb)
  · intro a i ha
    rw [hEnteries, hFrames]
    exact h.taken a i (hUse a ha)

theorem exclusive_newTable (h : Exclusive dirs s) (dir i : Nat) (r : Allocation) :
    Exclusive dirs (newTable dir i r s) := by
  -- a present entry is not in the new table, so it is an old one
  have hOld : ∀ a k, InUse dirs (newTable dir i r s) a →
      ((newTable dir i r s).enteries a k).isPresent = true →
        InUse dirs s a ∧ (newTable dir i r s).enteries a k = s.enteries a k := by
    intro a k ha hPresent
    by_cases har : a = r.ptr
    · subst har
      rw [newTable_enteries_self] at hPresent
      cases hPresent
    · exact ⟨(inUse_newTable ha).resolve_right har, newTable_enteries_of_ne har k⟩
  constructor
  · intro a b k l ha hb hk hl hPresent hPresent' hEq
    obtain ⟨haOld, haSame⟩ := hOld a k ha hPresent
    obtain ⟨hbOld, hbSame⟩ := hOld b l hb hPresent'
    rw [haSame] at hPresent hEq
    rw [hbSame] at hPresent' hEq
    exact h.own a b k l haOld hbOld hk hl hPresent hPresent' hEq
  · intro a k ha hk hPresent
    obtain ⟨haOld, haSame⟩ := hOld a k ha hPresent
    rw [haSame] at hPresent ⊢
    exact h.taken a k haOld hk hPresent

/-- Writing an entry with a frame that was free. -/
theorem exclusive_writePage (h : Exclusive dirs s) (hSmall : s.frameTable.length ≤ 1048576)
    (hFind : s.frameTable.findFirst = some idx) (loc : Nat × Nat) :
    Exclusive dirs (writePage loc idx s) := by
  obtain ⟨hLt, hFree, -⟩ := firstFree_spec hFind
  have hFrame : ((writePage loc idx s).enteries loc.1 loc.2).frame = idx := by
    rw [writePage_enteries_self]
    exact Page.frame_mapTo _ (by omega)
  have hNew : ∀ a k, InUse dirs s a → k < 1024 → (s.enteries a k).isPresent = true →
      (s.enteries a k).frame ≠ idx := by
    intro a k ha hk hPresent hEq
    have hTaken := (h.taken a k ha hk hPresent).1
    rw [hEq, hFree] at hTaken
    cases hTaken
  have hCases : ∀ a k, (a = loc.1 ∧ k = loc.2) ∨
      (writePage loc idx s).enteries a k = s.enteries a k := by
    intro a k
    by_cases hLoc : a = loc.1 ∧ k = loc.2
    · exact Or.inl hLoc
    · exact Or.inr (writePage_enteries_of_ne idx s (by tauto))
  constructor
  · intro a b k l ha hb hk hl hPresent hPresent' hEq
    rcases hCases a k with ⟨rfl, rfl⟩ | haSame <;> rcases hCases b l with ⟨rfl, rfl⟩ | hbSame
    · exact ⟨rfl, rfl⟩
    · rw [hbSame] at hPresent' hEq
      exact absurd (hEq.symm.trans hFrame) (hNew b l hb hl hPresent')
    · rw [haSame] at hPresent hEq
      exact absurd (hEq.trans hFrame) (hNew a k ha hk hPresent)
    · rw [haSame] at hPresent hEq
      rw [hbSame] at hPresent' hEq
      exact h.own a b k l ha hb hk hl hPresent hPresent' hEq
  · intro a k ha hk hPresent
    rcases hCases a k with ⟨rfl, rfl⟩ | haSame
    · rw [hFrame]
      exact ⟨Function.update_self .., hLt⟩
    · rw [haSame] at hPresent ⊢
      obtain ⟨hTaken, hBelow⟩ := h.taken a k ha hk hPresent
      refine ⟨?_, hBelow⟩
      by_cases hEq : (s.enteries a k).frame = idx
      · rw [hEq]
        exact Function.update_self ..
      · exact (Function.update_of_ne hEq ..).trans hTaken

/-- The invariant with what it needs: frame numbers have 20 bits. -/
structure ExclusiveInv (dirs : List Nat) (s : PagingState) : Prop where
  exclusive : Exclusive dirs s
  frames : s.frameTable.length ≤ 1048576

theorem exclusiveInv_mapPage {top : Nat} (h : ExclusiveInv dirs s)
    (hPage : mapPage A dir top s = some t) : ExclusiveInv dirs t := by
  obtain ⟨idx, hFind, ⟨-, rfl⟩ | ⟨-, rfl⟩⟩ := mapPage_cases hPage
  · exact ⟨exclusive_writePage h.exclusive h.frames hFind _, h.frames⟩
  · exact ⟨exclusive_writePage (exclusive_newTable h.exclusive _ _ _) h.frames hFind _, h.frames⟩

theorem exclusiveInv_kept : Kept ExclusiveInv where
  of_inUse h hEnteries hFrames hUse := by
    refine ⟨h.exclusive.of_inUse hEnteries hFrames hUse, ?_⟩
    rw [hFrames]
    exact h.frames
  empty hNone hFrames := by
    refine ⟨⟨fun a b i j ha => absurd ha (hNone a), fun a i ha => absurd ha (hNone a)⟩, ?_⟩
    rw [hFrames]
    decide
  mapPage := exclusiveInv_mapPage

end Juos.Paging
