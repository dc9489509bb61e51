import Juos.Machine.Views
import Juos.Paging.Faults

/-!
# Processes do not see each other's memory

The directories that exist are views of the physical memory. Below 4 MiB all of them see the same
and above it a created directory is alone: `private_of_run` shows that a byte of it is at no other
address of any directory. `undisturbed_of_run` follows the contents over runs in which the others
write, take page faults and are created.

All of this is for calls that keep the map of the kernel's own memory. The tables lie in it then,
mapped to themselves, so the processor reads what the code has written, and no address above 4 MiB
leads to them. A store to a table would leave nothing to say.
-/

namespace Juos.Paging

open Machine

variable {dirs roots : List Nat} {s t : PagingState} {dir d top n i a : Nat}

/-- Below 4 MiB every directory leads to the same bytes. -/
theorem Separated.translateIn_shared (h : Separated roots dirs s) {e : Nat} (hd : d ∈ dirs)
    (he : e ∈ dirs) (ha : a < 0x400000) : translateIn s d a = translateIn s e a := by
  rw [translateIn_eq (h.walked d hd) h.enabled (by omega),
    translateIn_eq (h.walked e he) h.enabled (by omega), h.lookup_first hd (by omega),
    h.lookup_first he (by omega)]

/-- What leads to a frame. -/
theorem translateIn_some (h : Walked s d) (hOn : s.pagingEnabled = true) (ha : a < 4294967296)
    {x : Nat} (hx : translateIn s d a = some x) :
    (s.directories d).tables (a / 4096 / 1024) ≠ 0 ∧
      (lookup s d (a / 4096)).isPresent = true ∧
      x = (lookup s d (a / 4096)).frame * 4096 + a % 4096 := by
  rw [translateIn_eq h hOn ha] at hx
  split at hx
  · rename_i hPresent
    refine ⟨fun hNull => ?_, hPresent, (Option.some.inj hx).symm⟩
    rw [lookup_of_null hNull] at hPresent
    cases hPresent
  · cases hx

/-- The directories that exist, as views of the physical memory. -/
def PagingSystem.view (s : PagingSystem) (d a : Nat) : Option Nat :=
  if d ∈ s.dirs ∧ a < 4294967296 then translateIn s.paging d a else none

theorem view_some {u : PagingSystem} {x : Nat} (h : u.view d a = some x) :
    d ∈ u.dirs ∧ a < 4294967296 ∧ translateIn u.paging d a = some x := by
  rw [PagingSystem.view] at h
  split at h
  · rename_i hIn
    exact ⟨hIn.1, hIn.2, h⟩
  · cases h

theorem Separated.private {u : PagingSystem} (h : Separated roots u.dirs u.paging)
    (hExclusive : Exclusive u.dirs u.paging) (hOut : d ∉ roots) (ha : 0x400000 ≤ a) :
    Private u.view d a := by
  intro x hx e b hx'
  obtain ⟨hd, hLt, hx⟩ := view_some hx
  obtain ⟨he, hb, hx'⟩ := view_some hx'
  obtain ⟨hTable, hPresent, hAddress⟩ := translateIn_some (h.walked d hd) h.enabled hLt hx
  obtain ⟨hTable', hPresent', hAddress'⟩ := translateIn_some (h.walked e he) h.enabled hb hx'
  rw [lookup_of_eq rfl hTable] at hPresent hAddress
  rw [lookup_of_eq rfl hTable'] at hPresent' hAddress'
  obtain ⟨hSame, hSlot⟩ := hExclusive.own _ _ _ _
    ⟨hTable', e, he, b / 4096 / 1024, by omega, rfl⟩
    ⟨hTable, d, hd, a / 4096 / 1024, by omega, rfl⟩ (by omega) (by omega) hPresent' hPresent
    (by omega)
  obtain ⟨hDir, hIndex⟩ := h.own d hd hOut _ (by omega) (by omega) hTable e he _ (by omega) hSame
  exact ⟨hDir, by omega⟩

/-- A physical address of the kernel's image or of its directories and tables. -/
def Reserved (x : Nat) : Prop := imageStart ≤ x ∧ x < mappedRegion

/-- No address above 4 MiB leads to the kernel's own memory. -/
theorem Kernel.not_reserved {u : PagingSystem} (h : Kernel roots u.dirs u.paging)
    (hExclusive : Exclusive u.dirs u.paging) (ha : 0x400000 ≤ a) {x : Nat}
    (hx : u.view d a = some x) : ¬ Reserved x := by
  rintro ⟨hLe, hLt⟩
  obtain ⟨hd, ha', hx⟩ := view_some hx
  obtain ⟨hTable, hPresent, hAddress⟩ := translateIn_some (h.walked d hd) h.enabled ha' hx
  rw [lookup_of_eq rfl hTable] at hPresent hAddress
  unfold imageStart at hLe
  unfold mappedRegion at hLt
  -- the page of the first table that has the same frame
  have hFirst := (h.first d hd).1
  obtain ⟨hPresent', hFrame'⟩ := h.lookup_image hd (by omega : 256 ≤ x / 4096) (by omega)
  have hSlot : x / 4096 / 1024 = 0 := by omega
  rw [lookup_of_eq (by rw [hSlot]) hFirst] at hPresent' hFrame'
  obtain ⟨hSame, -⟩ := hExclusive.own _ _ _ _ ⟨hTable, d, hd, a / 4096 / 1024, by omega, rfl⟩
    ⟨hFirst, d, hd, 0, by decide, rfl⟩ (by omega) (by omega) hPresent hPresent' (by omega)
  have hIndex := (h.wf d hd).distinct _ (by omega) 0 (by decide) hTable hSame
  omega

section Runs

variable {heapMapping : Option (Nat × Nat)} {u v : PagingSystem} {es : List PagingEvent}

/-- The tables lie in memory that every directory maps to itself. -/
structure TablesMapped (s : PagingSystem) : Prop where
  inside : ∀ a, InUse s.dirs s.paging a → imageStart ≤ a ∧ a + 4096 ≤ mappedRegion
  identity : ∀ d ∈ s.dirs, ∀ a, imageStart ≤ a → a < mappedRegion → s.view d a = some a

theorem Kernel.tablesMapped (h : Kernel roots u.dirs u.paging) : TablesMapped u := by
  constructor
  · rintro a ⟨hne, d, hd, i, hi, rfl⟩
    exact h.placed_table hd hi hne
  · intro d hd a ha ha'
    unfold imageStart at ha
    unfold mappedRegion at ha'
    obtain ⟨hPresent, hFrame⟩ := h.lookup_image hd (by omega : 256 ≤ a / 4096) (by omega)
    rw [PagingSystem.view, if_pos ⟨hd, by omega⟩,
      translateIn_eq (h.walked d hd) h.enabled (by omega), if_pos hPresent, hFrame]
    exact congrArg some (Nat.div_add_mod' a 4096)

/-- After every run that keeps the map all directories have the same memory below 4 MiB, above it a
directory that was created has its memory for itself, and the tables are where the code takes them
to be. -/
theorem private_of_run (h : Booted heapMapping s t)
    (hRun : Run (Guarded KernelStep KeepsMap) (.boot t) es u) :
    (∀ d ∈ u.dirs, ∀ e ∈ u.dirs, ∀ a < 0x400000, u.view d a = u.view e a) ∧
      (∀ d, d ∉ (PagingSystem.boot t).dirs → ∀ a, 0x400000 ≤ a → Private u.view d a) ∧
      TablesMapped u := by
  obtain ⟨hPlain, hKernel⟩ := kernel_of_run h hRun
  have hExclusive := (exclusiveInv_kept.run h.init hPlain).2.exclusive
  refine ⟨fun d hd e he a ha => ?_,
    fun d hOut a ha => hKernel.toSeparated.private hExclusive hOut ha, hKernel.tablesMapped⟩
  have hLt : a < 4294967296 := by omega
  rw [PagingSystem.view, PagingSystem.view, if_pos ⟨hd, hLt⟩, if_pos ⟨he, hLt⟩]
  exact hKernel.translateIn_shared hd he ha

end Runs

/-! ## Memory over time -/

/-- The paging code and the physical memory. The directories and tables are objects of their own;
their bytes in `mem` are not followed. -/
structure MemorySystem where
  paging : PagingSystem
  mem : Nat → UInt8

inductive MemoryEvent where
  | paging (e : PagingEvent)
  | store (dir addr : Nat) (value : UInt8)
  deriving DecidableEq, Repr

/-- The calls write to the kernel's own memory only. Below 4 MiB are the objects of the kernel,
which the stores do not touch; a store that reaches them all the same may leave anything. -/
inductive MemoryStep : MemorySystem → MemoryEvent → MemorySystem → Prop
  | paging {s : MemorySystem} {e : PagingEvent} {t : PagingSystem} {m : Nat → UInt8}
      (hStep : Guarded KernelStep KeepsMap s.paging e t)
      (hMem : ∀ x, ¬ Reserved x → m x = s.mem x) :
      MemoryStep s (.paging e) ⟨t, m⟩
  | store {s : MemorySystem} {dir addr : Nat} (value : UInt8) (hAddr : 0x400000 ≤ addr)
      (hFree : ∀ x ∈ s.paging.view dir addr, ¬ Reserved x) :
      MemoryStep s (.store dir addr value)
        ⟨s.paging, writeThrough s.paging.view dir addr value s.mem⟩
  | storeReserved {s t : MemorySystem} {dir addr x : Nat} {value : UInt8}
      (hAddr : 0x400000 ≤ addr) (hFound : s.paging.view dir addr = some x)
      (hReserved : Reserved x) : MemoryStep s (.store dir addr value) t

/-- The events that are for the directory at `d`: its own stores, and mappings of its pages. -/
def MemoryEvent.Concerns (d : Nat) : MemoryEvent → Prop
  | .paging (.mapRegion _ _ dir) => dir = d
  | .paging (.createDirectory _) => False
  | .paging (.pageFault _ _ directory) => directory = some d
  | .store dir _ _ => dir = d

section Time

variable {e : Nat}

/-- Mapping a page for another directory. -/
theorem Separated.lookup_mapPage (h : Separated roots dirs s) (hDir : dir ∈ dirs)
    (hTop : top < 4294967296) (hPage : Paging.mapPage standartAllocator dir top s = some t)
    (hd : d ∈ dirs) (hOut : d ∉ roots) (hne : dir ≠ d) {q : Nat} (hq : 1024 ≤ q)
    (hLt : q < 1048576) : lookup t d q = lookup s d q := by
  have hLess : framesLeft t + 1 = framesLeft s := freeCount_mapPage hPage
  have hRoom : HeapRoom s.primitiveHeap (framesLeft t + 1) := by
    rw [hLess]
    exact h.room
  have hDirectory : t.directories d = s.directories d := by
    obtain ⟨-, -, -, hSame | hMade⟩ := h.toWalkable.mapPage hPage
    · rw [hSame]
    · exact hMade.others d (Ne.symm hne)
  have hTable : (t.directories d).tables (q / 1024) = (s.directories d).tables (q / 1024) := by
    rw [hDirectory]
  by_cases hNull : (s.directories d).tables (q / 1024) = 0
  · rw [lookup_of_null hNull, lookup_of_null (hTable.trans hNull)]
  · rw [lookup_of_eq hTable hNull, lookup_of_eq rfl hNull]
    obtain ⟨idx, -, ⟨-, hWrite⟩ | ⟨-, hWrite⟩⟩ := mapPage_cases hPage
    · -- the table that is written to is not one of `d`
      have hOther : (s.directories d).tables (q / 1024) ≠
          (s.directories dir).tables (top / 4096 / 1024) := fun hEq =>
        hne (h.own d hd hOut _ (by omega) (by omega) hNull dir hDir _ (by omega) hEq.symm).1
      rw [hWrite]
      exact writePage_enteries_of_ne _ _ (Or.inl hOther)
    · have hFresh := h.fresh hRoom hd (by omega : q / 1024 < 1024)
      rw [hWrite, writePage_enteries_of_ne _ _ (Or.inl hFresh), newTable_enteries_of_ne hFresh]

theorem Separated.lookup_mapLoop {fuel stop : Nat} (h : Separated roots dirs s) (hDir : dir ∈ dirs)
    (hTop : top < 4294967296)
    (hRun : mapLoop standartAllocator dir stop fuel top s = some (n, t)) (hd : d ∈ dirs)
    (hOut : d ∉ roots) (hne : dir ≠ d) {q : Nat} (hq : 1024 ≤ q) (hLt : q < 1048576) :
    lookup t d q = lookup s d q := by
  induction fuel generalizing top s n with
  | zero => cases hRun
  | succ fuel ih =>
    rcases mapLoop_cases hRun with ⟨-, -, rfl⟩ | ⟨k, u, -, -, hPage, hLoop⟩
    · rfl
    · rw [ih (h.mapPage hPage) (Nat.mod_lt _ (by decide)) hLoop]
      exact h.lookup_mapPage hDir hTop hPage hd hOut hne hq hLt

/-- The pages of `d` above 4 MiB are what they were. -/
def SamePages (d : Nat) (s t : PagingState) : Prop :=
  ∀ q, 1024 ≤ q → q < 1048576 → lookup t d q = lookup s d q

theorem Separated.lookup_mapRegion {start stop : Nat} (h : Separated roots dirs s)
    (hDir : target dir s ∈ dirs) (hStart : start < 4294967296)
    (hRun : Paging.mapRegion start stop standartAllocator dir s = some (n, t)) (hd : d ∈ dirs)
    (hOut : d ∉ roots) (hne : target dir s ≠ d) : SamePages d s t :=
  fun _ hq hLt => h.lookup_mapLoop hDir hStart hRun hd hOut hne hq hLt

theorem Separated.lookup_createDirectory {mappings : List (Nat × Nat)}
    (h : Separated roots dirs s) (hRoom : HeapRoom s.primitiveHeap (framesLeft s + 2))
    (hMappings : ∀ m ∈ mappings, m.1 < 4294967296 ∧ m.2 < 4294967296)
    (hRun : createDirectory mappings s = some (dir, t)) (hd : d ∈ dirs) (hOut : d ∉ roots) :
    SamePages d s t := by
  have hBelow := (h.below d hd).2
  have hStarted := started_newDirectory h.base (h.below _ (h.roots_mem _ h.current)).2 hRoom
  obtain ⟨u, hFold, hEq⟩ := Option.map_eq_some_iff.mp hRun
  obtain ⟨hPtr, rfl⟩ := Prod.mk.inj hEq
  have hNew := h.newDirectory hRoom
  simp only [hPtr] at hStarted hNew hFold
  have hNe : dir ≠ 0 := hStarted.ne_zero
  have hLe := hStarted.heap_le
  have hFirst : SamePages d s (Paging.newDirectory s) := by
    intro q _ _
    rw [lookup, lookup, hStarted.others d (by omega), newDirectory_enteries]
  refine (foldlM_invariant (I := fun v => Separated roots (dir :: dirs) v ∧ SamePages d s v)
    (fun v m w hm hv hMap => ?_) hFold ⟨hNew, hFirst⟩).2
  obtain ⟨⟨k, w⟩, hMapRegion, rfl⟩ := Option.map_eq_some_iff.mp hMap
  have hTarget : target dir v = dir := if_neg hNe
  refine ⟨hv.1.mapRegion hMapRegion, fun q hq hLt => ?_⟩
  rw [← hv.2 q hq hLt]
  refine hv.1.lookup_mapRegion ?_ (hMappings m hm).1 hMapRegion (List.mem_cons_of_mem _ hd) hOut ?_
    q hq hLt
  · rw [hTarget]
    exact List.mem_cons_self
  · rw [hTarget]
    omega

/-- A step that does not concern `d` leaves its pages above 4 MiB as they were. -/
theorem Kernel.samePages {u v : PagingSystem} {e : PagingEvent}
    (h : Kernel roots u.dirs u.paging) (hStep : PagingStep u e v) (hd : d ∈ u.dirs)
    (hOut : d ∉ roots)
    (hOther : ¬ (MemoryEvent.paging e).Concerns d) : SamePages d u.paging v.paging := by
  have hTarget : ∀ dir, dir ≠ d → target dir u.paging ≠ d := by
    intro dir hne
    unfold target
    split
    · rintro rfl
      exact hOut h.current
    · exact hne
  cases hStep with
  | mapRegion hStart _ hDir hRun =>
    exact h.lookup_mapRegion (h.target_mem hDir) hStart hRun hd hOut (hTarget _ hOther)
  | createDirectory hMappings hRun =>
    exact h.lookup_createDirectory h.roomForDirectory hMappings hRun hd hOut
  | pageFault hAddress hDir hFault =>
    obtain ⟨dir, n, rfl, hRun⟩ := pageFault_cases hFault
    have hne : dir ≠ d := fun hEq => hOther (congrArg some hEq)
    exact h.lookup_mapRegion (h.target_mem (hDir dir rfl)) (by omega) hRun hd hOut
      (hTarget dir hne)

/-- Directories are never removed. -/
theorem PagingStep.dirs_subset {u v : PagingSystem} {e : PagingEvent} (h : PagingStep u e v)
    (hd : d ∈ u.dirs) : d ∈ v.dirs := by
  cases h with
  | mapRegion => exact hd
  | createDirectory => exact List.mem_cons_of_mem _ hd
  | pageFault => exact hd

/-- What holds in every state of a run with stores. -/
structure Running (roots : List Nat) (s : MemorySystem) : Prop where
  kernel : Kernel roots s.paging.dirs s.paging.paging
  exclusive : ExclusiveInv s.paging.dirs s.paging.paging
  rooted : Rooted s.paging

theorem Running.step {s t : MemorySystem} {e : MemoryEvent} (h : Running roots s)
    (hStep : MemoryStep s e t) : Running roots t := by
  cases hStep with
  | paging hStep _ =>
    obtain ⟨hPlain, hKernel⟩ := h.kernel.step hStep
    obtain ⟨hRooted, hExclusive⟩ := exclusiveInv_kept.step h.rooted h.exclusive hPlain
    exact ⟨hKernel, hExclusive, hRooted⟩
  | store value hAddr _ => exact ⟨h.kernel, h.exclusive, h.rooted⟩
  | storeReserved hAddr hFound hReserved =>
    exact absurd hReserved (h.kernel.not_reserved h.exclusive.exclusive hAddr hFound)

theorem view_of_samePages {u v : PagingSystem} (h : Separated roots u.dirs u.paging)
    (h' : Separated roots v.dirs v.paging) (hd : d ∈ u.dirs) (hd' : d ∈ v.dirs)
    (hSame : SamePages d u.paging v.paging) (ha : 0x400000 ≤ a) : v.view d a = u.view d a := by
  by_cases hLt : a < 4294967296
  · rw [PagingSystem.view, PagingSystem.view, if_pos ⟨hd', hLt⟩, if_pos ⟨hd, hLt⟩,
      translateIn_eq (h.walked d hd) h.enabled hLt, translateIn_eq (h'.walked d hd') h'.enabled hLt,
      hSame (a / 4096) (by omega) (by omega)]
  · rw [PagingSystem.view, PagingSystem.view, if_neg fun hIn => hLt hIn.2,
      if_neg fun hIn => hLt hIn.2]

/-- One step that is not for `d`. -/
theorem Running.undisturbed {s t : MemorySystem} {e : MemoryEvent} (h : Running roots s)
    (hStep : MemoryStep s e t) (hd : d ∈ s.paging.dirs) (hOut : d ∉ roots)
    (hOther : ¬ e.Concerns d) (ha : 0x400000 ≤ a) :
    d ∈ t.paging.dirs ∧ t.paging.view d a = s.paging.view d a ∧
      readThrough t.paging.view d a t.mem = readThrough s.paging.view d a s.mem := by
  have hNext := h.step hStep
  cases hStep with
  | paging hStep hMem =>
    have hPlain := (h.kernel.step hStep).1
    have hd' := hPlain.dirs_subset hd
    have hSame := h.kernel.samePages hPlain hd hOut hOther
    have hView := view_of_samePages h.kernel.toSeparated hNext.kernel.toSeparated hd hd' hSame ha
    refine ⟨hd', hView, ?_⟩
    rw [readThrough, hView, readThrough]
    cases hFound : s.paging.view d a with
    | none => rfl
    | some x =>
      exact congrArg some (hMem x (h.kernel.not_reserved h.exclusive.exclusive ha hFound))
  | store value hAddr _ =>
    have hPrivate := h.kernel.toSeparated.private h.exclusive.exclusive hOut ha
    exact ⟨hd, rfl, hPrivate.read_write (fun hSame => hOther hSame.1) value⟩
  | storeReserved hAddr hFound hReserved =>
    exact absurd hReserved (h.kernel.not_reserved h.exclusive.exclusive hAddr hFound)

end Time

section Undisturbed

variable {heapMapping : Option (Nat × Nat)} {m : Nat → UInt8} {u v : MemorySystem}
  {es es' : List MemoryEvent}

theorem running_boot (h : Booted heapMapping s t) (m : Nat → UInt8) :
    Running (PagingSystem.boot t).dirs ⟨.boot t, m⟩ where
  kernel := kernel_boot h
  exclusive := exclusiveInv_kept.boot h.init
  rooted := ⟨List.mem_cons_self, List.mem_cons_of_mem _ (List.mem_singleton_self _)⟩

/-- However the others run, a created directory keeps its addresses above 4 MiB and what is stored
there. -/
theorem undisturbed_of_run (h : Booted heapMapping s t)
    (hRun : Run MemoryStep ⟨.boot t, m⟩ es u) (hRest : Run MemoryStep u es' v)
    (hd : d ∈ u.paging.dirs) (hCreated : d ∉ (PagingSystem.boot t).dirs)
    (hOthers : ∀ e ∈ es', ¬ e.Concerns d) (ha : 0x400000 ≤ a) :
    v.paging.view d a = u.paging.view d a ∧
      readThrough v.paging.view d a v.mem = readThrough u.paging.view d a u.mem := by
  have hStart : Running (PagingSystem.boot t).dirs u :=
    hRun.invariant (running_boot h m) fun _ _ _ hInv hStep => hInv.step hStep
  suffices hAll : Running (PagingSystem.boot t).dirs v ∧ d ∈ v.paging.dirs ∧
      v.paging.view d a = u.paging.view d a ∧
      readThrough v.paging.view d a v.mem = readThrough u.paging.view d a u.mem from hAll.2.2
  induction hRest with
  | refl => exact ⟨hStart, hd, rfl, rfl⟩
  | @tail es' e w w' prior last ih =>
    obtain ⟨hRunning, hMem, hView, hRead⟩ :=
      ih fun e' he' => hOthers e' (List.mem_append_left _ he')
    obtain ⟨hMem', hView', hRead'⟩ := hRunning.undisturbed last hMem hCreated
      (hOthers e (List.mem_append_right _ (List.mem_singleton_self e))) ha
    exact ⟨hRunning.step last, hMem', hView'.trans hView, hRead'.trans hRead⟩

/-- Two processes. -/
theorem private_of_run_processes : ∃ t u d e,
    pagingInitialize (some (0xC0000000, 0xC1000000)) kernelImage = some t ∧
    Run (Guarded KernelStep KeepsMap) (.boot t) [withStack, withStack] u ∧
    (d ∈ u.dirs ∧ e ∈ u.dirs ∧ d ≠ e ∧ Private u.view d 0xA0000000 ∧
      Private u.view e 0xA0000000) ∧
    (∀ a < 0x400000, u.view d a = u.view e a) ∧ TablesMapped u := by
  obtain ⟨t, hInit, hKernel, hPages, hFrames⟩ := exists_kernel
  obtain ⟨d, u, hFirst, hNew, hLeft, hMore⟩ := exists_withStack hKernel (by omega) (by omega)
  obtain ⟨e, v, hSecond, hNew', -, -⟩ := exists_withStack (hKernel.step hFirst).2
    (show (u.primitiveHeap + 4095) / 4096 + 3 ≤ 512 by omega)
    (show 16 ≤ framesLeft u by omega)
  have hRun := Run.tail (Run.single hFirst) hSecond
  obtain ⟨hShared, hPrivate, hTables⟩ := private_of_run (booted_kernelImage hInit) hRun
  obtain ⟨hne, hOut⟩ := not_or.mp fun hMem => hNew' (List.mem_cons.mpr hMem)
  have hMem : d ∈ e :: d :: (PagingSystem.boot t).dirs := List.mem_cons_of_mem _ List.mem_cons_self
  exact ⟨t, _, d, e, hInit, hRun, ⟨hMem, List.mem_cons_self, Ne.symm hne,
    hPrivate d hNew _ (by decide), hPrivate e hOut _ (by decide)⟩,
    hShared d hMem e List.mem_cons_self, hTables⟩

/-- The kernel writes to its heap, and another process is created. -/
theorem undisturbed_of_run_stack : ∃ t u v d,
    pagingInitialize (some (0xC0000000, 0xC1000000)) kernelImage = some t ∧
    Run MemoryStep ⟨.boot t, fun _ => 0⟩ [.paging withStack, .store d 0xA0000FF0 7] u ∧
    Run MemoryStep u [.store t.kernelDirectory 0xC0000010 1, .paging withStack] v ∧
    readThrough v.paging.view d 0xA0000FF0 v.mem =
      readThrough u.paging.view d 0xA0000FF0 u.mem := by
  obtain ⟨t, hInit, hKernel, hPages, hFrames⟩ := exists_kernel
  obtain ⟨d, u, hFirst, hNew, hLeft, hMore⟩ := exists_withStack hKernel (by omega) (by omega)
  obtain ⟨hPlain, hKernel'⟩ := hKernel.step hFirst
  obtain ⟨e, v, hSecond, -, -, -⟩ := exists_withStack hKernel'
    (show (u.primitiveHeap + 4095) / 4096 + 3 ≤ 512 by omega)
    (show 16 ≤ framesLeft u by omega)
  have hne : t.kernelDirectory ≠ d := by
    rintro rfl
    exact hNew (List.mem_cons_of_mem _ (List.mem_singleton_self _))
  have hExclusive := (exclusiveInv_kept.run hInit (Run.single hPlain)).2.exclusive
  obtain ⟨m, hRun⟩ : ∃ m, Run MemoryStep ⟨.boot t, fun _ => 0⟩
      [.paging withStack, .store d 0xA0000FF0 7] ⟨⟨u, d :: (PagingSystem.boot t).dirs⟩, m⟩ :=
    ⟨_, .cons (.paging hFirst fun _ _ => rfl) (.single (.store 7 (by decide) fun _ hx =>
      hKernel'.not_reserved hExclusive (by decide) hx))⟩
  obtain ⟨m', hRest⟩ : ∃ m', Run MemoryStep ⟨⟨u, d :: (PagingSystem.boot t).dirs⟩, m⟩
      [.store t.kernelDirectory 0xC0000010 1, .paging withStack]
      ⟨⟨v, e :: d :: (PagingSystem.boot t).dirs⟩, m'⟩ :=
    ⟨_, .cons (.store 1 (by decide) fun _ hx => hKernel'.not_reserved hExclusive (by decide) hx)
      (.single (.paging hSecond fun _ _ => rfl))⟩
  refine ⟨t, _, _, d, hInit, hRun, hRest, ?_⟩
  refine (undisturbed_of_run (booted_kernelImage hInit) hRun hRest List.mem_cons_self hNew ?_
    (by decide)).2
  rw [List.forall_mem_cons, List.forall_mem_singleton]
  exact ⟨hne, id⟩

end Undisturbed

end Juos.Paging
