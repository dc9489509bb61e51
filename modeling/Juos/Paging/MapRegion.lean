import Juos.Paging.PageTables

/-!
# Which pages a region maps

`mapPage_cases` says all that one iteration of the mapping loop can do; every later result about
the loop goes through it and through `mapLoop_invariant`.

`Mapped s t dir p n` is what mapping the pages `p`, ..., `p + n - 1` of a directory is meant to
do. `mapLoop_mapped` shows that the loop does it as long as it does not have to create the table
of its first page, or that page is the first of its table: a new table is entered at the index that
its own address gives, and that index is 0.
-/

namespace Juos.Paging

open Machine

variable {A : MemoryAlloctor} {dir stop top fuel p n idx : Nat} {s t u : PagingState}

/-! ## One iteration -/

theorem mapPage_cases (h : mapPage A dir top s = some t) :
    ∃ idx, s.frameTable.findFirst = some idx ∧
      (((s.directories dir).tables (top / 4096 / 1024) ≠ 0 ∧
          t = writePage ((s.directories dir).tables (top / 4096 / 1024), top / 4096 % 1024)
            idx s) ∨
        ((s.directories dir).tables (top / 4096 / 1024) = 0 ∧
          t = writePage ((A 4096 s.primitiveHeap).ptr, (A 4096 s.primitiveHeap).phys % 1024) idx
            (newTable dir (top / 4096 / 1024) (A 4096 s.primitiveHeap) s))) := by
  unfold mapPage at h
  cases hFind : s.frameTable.findFirst with
  | none =>
    rw [hFind] at h
    cases h
  | some idx =>
    refine ⟨idx, rfl, ?_⟩
    by_cases hTable : (s.directories dir).tables (top / 4096 / 1024) = 0
    · simp only [hFind, getPage, hTable, ne_eq, not_true_eq_false, if_false, if_true,
        Option.some.injEq] at h
      exact Or.inr ⟨hTable, h.symm⟩
    · simp only [hFind, getPage, hTable, ne_eq, not_false_eq_true, if_true,
        Option.some.injEq] at h
      exact Or.inl ⟨hTable, h.symm⟩

theorem mapPage_of_table (hFind : s.frameTable.findFirst = some idx)
    (hTable : (s.directories dir).tables (top / 4096 / 1024) ≠ 0) :
    mapPage A dir top s =
      some (writePage ((s.directories dir).tables (top / 4096 / 1024), top / 4096 % 1024)
        idx s) := by
  simp only [mapPage, hFind, getPage, hTable, ne_eq, not_false_eq_true, if_true]

theorem mapPage_of_missing (hFind : s.frameTable.findFirst = some idx)
    (hTable : (s.directories dir).tables (top / 4096 / 1024) = 0) :
    mapPage A dir top s =
      some (writePage ((A 4096 s.primitiveHeap).ptr, (A 4096 s.primitiveHeap).phys % 1024) idx
        (newTable dir (top / 4096 / 1024) (A 4096 s.primitiveHeap) s)) := by
  simp only [mapPage, hFind, getPage, hTable, ne_eq, not_true_eq_false, if_false, if_true]

/-- An iteration takes the first free frame and touches no other. -/
theorem mapPage_frameTable (h : mapPage A dir top s = some t) :
    ∃ idx, s.frameTable.findFirst = some idx ∧ t.frameTable = s.frameTable.setAtIndex idx := by
  obtain ⟨idx, hFind, ⟨-, rfl⟩ | ⟨-, rfl⟩⟩ := mapPage_cases h
  · exact ⟨idx, hFind, rfl⟩
  · exact ⟨idx, hFind, rfl⟩

/-- An iteration uses up one free frame. -/
theorem freeCount_mapPage (h : mapPage A dir top s = some t) :
    freeCount t.frameTable.isTaken t.frameTable.length + 1 =
      freeCount s.frameTable.isTaken s.frameTable.length := by
  obtain ⟨idx, hFind, hTable⟩ := mapPage_frameTable h
  obtain ⟨hIdx, hFree, -⟩ := firstFree_spec hFind
  rw [hTable]
  exact freeCount_update hIdx hFree

/-! ## The loop -/

/-- The loop is done, or makes an iteration and goes on. -/
theorem mapLoop_cases (h : mapLoop A dir stop (fuel + 1) top s = some (n, t)) :
    (stop ≤ top ∧ n = 0 ∧ t = s) ∨ ∃ k u, top < stop ∧ n = k + 1 ∧ mapPage A dir top s = some u ∧
      mapLoop A dir stop fuel ((top + 4096) % 4294967296) u = some (k, t) := by
  rw [mapLoop] at h
  split at h
  case isTrue hTop =>
    obtain ⟨u, hPage, hRest⟩ := Option.bind_eq_some_iff.mp h
    obtain ⟨r, hLoop, hEq⟩ := Option.map_eq_some_iff.mp hRest
    cases hEq
    exact Or.inr ⟨r.1, u, hTop, rfl, hPage, hLoop⟩
  case isFalse hTop =>
    cases h
    exact Or.inl ⟨Nat.le_of_not_lt hTop, rfl, rfl⟩

/-- What an iteration preserves holds when the loop is done. -/
theorem mapLoop_invariant {I : PagingState → Prop}
    (hStep : ∀ s t top, I s → mapPage A dir top s = some t → I t)
    (h : mapLoop A dir stop fuel top s = some (n, t)) (hs : I s) : I t := by
  induction fuel generalizing top s n with
  | zero => cases h
  | succ fuel ih =>
    rcases mapLoop_cases h with ⟨-, -, rfl⟩ | ⟨k, u, -, -, hPage, hLoop⟩
    · exact hs
    · exact ih hLoop (hStep _ _ _ hs hPage)

/-- A loop that ends has not run past the end of the address space: it would have had to meet the
upper bound before. -/
theorem mapLoop_reach (hTop : top < 4294967296)
    (h : mapLoop A dir stop fuel top s = some (n, t)) :
    stop ≤ top + 4096 * n ∧ top + 4096 * n < 4294967296 := by
  induction fuel generalizing top s n with
  | zero => cases h
  | succ fuel ih =>
    rcases mapLoop_cases h with ⟨hEnd, rfl, -⟩ | ⟨k, u, hStop, rfl, -, hLoop⟩
    · omega
    · have hReach := ih (Nat.mod_lt _ (by decide)) hLoop
      omega

/-- With one more iteration than there are free frames, the loop ends or panics: more fuel makes no
difference. -/
theorem mapLoop_fuel {fuel' : Nat}
    (hFuel : freeCount s.frameTable.isTaken s.frameTable.length < fuel)
    (hFuel' : freeCount s.frameTable.isTaken s.frameTable.length < fuel') :
    mapLoop A dir stop fuel top s = mapLoop A dir stop fuel' top s := by
  induction fuel generalizing fuel' top s with
  | zero => omega
  | succ fuel ih =>
    cases fuel' with
    | zero => omega
    | succ fuel' =>
      rw [mapLoop, mapLoop]
      by_cases hTop : top < stop
      · rw [if_pos hTop, if_pos hTop]
        cases hPage : mapPage A dir top s with
        | none => rfl
        | some u =>
          have hLess := freeCount_mapPage hPage
          have hSame : mapLoop A dir stop fuel ((top + 4096) % 4294967296) u =
              mapLoop A dir stop fuel' ((top + 4096) % 4294967296) u :=
            ih (by omega) (by omega)
          simp only [Option.bind_some, hSame]
      · rw [if_neg hTop, if_neg hTop]

/-- While a frame is free an iteration succeeds, and it uses up one. -/
theorem mapPage_isSome (h : n + 1 ≤ freeCount s.frameTable.isTaken s.frameTable.length) :
    ∃ t, mapPage A dir top s = some t ∧
      n ≤ freeCount t.frameTable.isTaken t.frameTable.length := by
  obtain ⟨idx, hFind⟩ := firstFree_isSome (Nat.lt_of_lt_of_le n.succ_pos h)
  obtain ⟨hIdx, hFree, -⟩ := firstFree_spec hFind
  have hCount := freeCount_update hIdx hFree
  have hLeft : n ≤ freeCount (Function.update s.frameTable.isTaken idx true)
      s.frameTable.length := by omega
  by_cases hTable : (s.directories dir).tables (top / 4096 / 1024) = 0
  · exact ⟨_, mapPage_of_missing hFind hTable, hLeft⟩
  · exact ⟨_, mapPage_of_table hFind hTable, hLeft⟩

/-- Frames for all pages are enough for a region to be mapped, well or not. -/
theorem mapLoop_isSome {k : Nat} (h : n + k ≤ freeCount s.frameTable.isTaken s.frameTable.length)
    (hStop : stop = 4096 * (p + n)) (hLt : stop < 4294967296) (hFuel : n < fuel) :
    ∃ t, mapLoop A dir stop fuel (4096 * p) s = some (n, t) ∧
      k ≤ freeCount t.frameTable.isTaken t.frameTable.length := by
  obtain ⟨fuel, rfl⟩ : ∃ k, fuel = k + 1 := ⟨fuel - 1, by omega⟩
  induction n generalizing s p fuel with
  | zero => exact ⟨s, by rw [mapLoop, if_neg (by omega)], by omega⟩
  | succ n ih =>
    obtain ⟨fuel, rfl⟩ : ∃ k, fuel = k + 1 := ⟨fuel - 1, by omega⟩
    have hMore : n + k + 1 ≤ freeCount s.frameTable.isTaken s.frameTable.length := by omega
    obtain ⟨u, hPage, hLeft⟩ : ∃ u, mapPage A dir (4096 * p) s = some u ∧
        n + k ≤ freeCount u.frameTable.isTaken u.frameTable.length := mapPage_isSome hMore
    obtain ⟨t, hLoop, hRest⟩ := ih hLeft (p := p + 1) (by omega) fuel (by omega)
    refine ⟨t, ?_, hRest⟩
    rw [mapLoop, if_pos (by omega), hPage, Option.bind_some,
      Nat.mod_eq_of_lt (by omega : 4096 * p + 4096 < 4294967296),
      show 4096 * p + 4096 = 4096 * (p + 1) by omega, hLoop]
    rfl

theorem mapRegion_isSome (A : MemoryAlloctor) (dir : Nat) {k : Nat}
    (h : n + k ≤ freeCount s.frameTable.isTaken s.frameTable.length)
    (hLt : 4096 * (p + n) < 4294967296) :
    ∃ t, mapRegion (4096 * p) (4096 * (p + n)) A dir s = some (n, t) ∧
      k ≤ freeCount t.frameTable.isTaken t.frameTable.length := by
  have hAll : freeCount s.frameTable.isTaken s.frameTable.length ≤ s.frameTable.length :=
    freeCount_le
  exact mapLoop_isSome h rfl hLt (by omega)

/-! ## What mapping leaves alone -/

/-- The parts of the state that no mapping touches. -/
structure SameRoots (s t : PagingState) : Prop where
  current : t.pagingCurrentDirectory = s.pagingCurrentDirectory
  kernel : t.kernelDirectory = s.kernelDirectory
  base : t.baseKernelTablesSize = s.baseKernelTablesSize
  length_eq : t.frameTable.length = s.frameTable.length

theorem SameRoots.refl (s : PagingState) : SameRoots s s := ⟨rfl, rfl, rfl, rfl⟩

theorem SameRoots.trans (h : SameRoots s t) (h' : SameRoots t u) : SameRoots s u :=
  ⟨h'.current.trans h.current, h'.kernel.trans h.kernel, h'.base.trans h.base,
    h'.length_eq.trans h.length_eq⟩

theorem mapPage_sameRoots (h : mapPage A dir top s = some t) : SameRoots s t := by
  obtain ⟨idx, -, ⟨-, rfl⟩ | ⟨-, rfl⟩⟩ := mapPage_cases h
  · exact ⟨rfl, rfl, rfl, rfl⟩
  · exact ⟨rfl, rfl, rfl, rfl⟩

theorem mapRegion_sameRoots {start : Nat} (h : mapRegion start stop A dir s = some (n, t)) :
    SameRoots s t :=
  mapLoop_invariant (fun _ _ _ hSame hPage => hSame.trans (mapPage_sameRoots hPage)) h (.refl s)

/-! ## Looking up an entry -/

/-- The entry of `dir` for the page `q`; a missing table has no present entries. -/
def lookup (s : PagingState) (dir q : Nat) : Page :=
  if (s.directories dir).tables (q / 1024) = 0 then .zero
  else s.enteries ((s.directories dir).tables (q / 1024)) (q % 1024)

theorem lookup_of_null {q : Nat} (h : (s.directories dir).tables (q / 1024) = 0) :
    lookup s dir q = .zero := if_pos h

theorem lookup_of_eq {q a : Nat} (h : (s.directories dir).tables (q / 1024) = a) (ha : a ≠ 0) :
    lookup s dir q = s.enteries a (q % 1024) := by
  subst h
  exact if_neg ha

/-- The tables of `dir` are different objects, and all of them have been handed out. -/
structure WellFormed (owned : Nat → Nat → Prop) (s : PagingState) (dir : Nat) : Prop where
  distinct : ∀ i < 1024, ∀ j < 1024, (s.directories dir).tables i ≠ 0 →
    (s.directories dir).tables i = (s.directories dir).tables j → i = j
  allocated : ∀ i < 1024, (s.directories dir).tables i ≠ 0 →
    owned s.primitiveHeap ((s.directories dir).tables i)

/-- As long as there is `room`, a request for a page table returns a page that was not handed out
before, together with its own address. -/
structure PageAligning (A : MemoryAlloctor) (owned room : Nat → Nat → Prop) : Prop where
  aligned : ∀ n h, room h (n + 1) → (A 4096 h).ptr % 4096 = 0
  phys : ∀ n h, room h (n + 1) → (A 4096 h).phys = (A 4096 h).ptr
  ne_zero : ∀ n h, room h (n + 1) → (A 4096 h).ptr ≠ 0
  fresh : ∀ n h, room h (n + 1) → ¬ owned h (A 4096 h).ptr
  owns : ∀ n h, room h (n + 1) → owned (A 4096 h).primitiveHeap (A 4096 h).ptr
  keeps : ∀ n h a, room h (n + 1) → owned h a → owned (A 4096 h).primitiveHeap a
  rest : ∀ n h, room h (n + 1) → room (A 4096 h).primitiveHeap n
  mono : ∀ n h, room h (n + 1) → room h n

/-- The pages `p`, ..., `p + n - 1` of `dir`, and no others, have been mapped to frames of their
own. -/
structure Mapped (s t : PagingState) (dir p n : Nat) : Prop where
  present : ∀ q, p ≤ q → q < p + n → (lookup t dir q).isPresent = true ∧
    (lookup t dir q).frame < s.frameTable.length ∧
    s.frameTable.isTaken (lookup t dir q).frame = false ∧
    t.frameTable.isTaken (lookup t dir q).frame = true
  own : ∀ q q', p ≤ q → q < q' → q' < p + n →
    (lookup t dir q).frame ≠ (lookup t dir q').frame
  other : ∀ q < 1048576, q < p ∨ p + n ≤ q → lookup t dir q = lookup s dir q
  tables : ∀ i < 1024, (s.directories dir).tables i ≠ 0 →
    (t.directories dir).tables i = (s.directories dir).tables i ∧
      (t.directories dir).tableAddresses i = (s.directories dir).tableAddresses i
  created : ∀ i < 1024, (s.directories dir).tables i = 0 → (t.directories dir).tables i ≠ 0 →
    (t.directories dir).tableAddresses i = (t.directories dir).tables i ||| 7
  taken : ∀ f, s.frameTable.isTaken f = true → t.frameTable.isTaken f = true
  length_eq : t.frameTable.length = s.frameTable.length

theorem Mapped.refl (s : PagingState) (dir p : Nat) : Mapped s s dir p 0 where
  present q hLe hLt := absurd hLt (Nat.not_lt.mpr hLe)
  own q q' hLe hLt hEnd := absurd hEnd (by omega)
  other _ _ _ := rfl
  tables _ _ _ := ⟨rfl, rfl⟩
  created _ _ hZero hNew := absurd hZero hNew
  taken _ hf := hf
  length_eq := rfl

theorem Mapped.succ (h : Mapped s t dir p 1) (h' : Mapped t u dir (p + 1) n) (hp : p < 1048576) :
    Mapped s u dir p (n + 1) := by
  have hFirst := h'.other p hp (Or.inl (Nat.lt_succ_self p))
  refine ⟨?_, ?_, ?_, ?_, ?_, ?_, h'.length_eq.trans h.length_eq⟩
  · intro q hLe hLt
    rcases Nat.eq_or_lt_of_le hLe with rfl | hLater
    · obtain ⟨hPresent, hFrame, hFree, hTaken⟩ := h.present p (Nat.le_refl p) (Nat.lt_succ_self p)
      rw [hFirst]
      exact ⟨hPresent, hFrame, hFree, h'.taken _ hTaken⟩
    · obtain ⟨hPresent, hFrame, hFree, hTaken⟩ := h'.present q hLater (by omega)
      refine ⟨hPresent, h.length_eq ▸ hFrame, ?_, hTaken⟩
      by_contra hNot
      rw [h.taken _ (by simpa using hNot)] at hFree
      cases hFree
  · intro q q' hLe hLt hEnd
    rcases Nat.eq_or_lt_of_le hLe with rfl | hLater
    · obtain ⟨-, -, -, hTaken⟩ := h.present p (Nat.le_refl p) (Nat.lt_succ_self p)
      obtain ⟨-, -, hFree, -⟩ := h'.present q' hLt (by omega)
      intro hEq
      rw [hFirst] at hEq
      rw [← hEq, hTaken] at hFree
      cases hFree
    · exact h'.own q q' hLater hLt (by omega)
  · intro q hq hOut
    exact (h'.other q hq (by omega)).trans (h.other q hq (by omega))
  · intro i hi hne
    obtain ⟨hTable, hAddress⟩ := h.tables i hi hne
    obtain ⟨hTable', hAddress'⟩ := h'.tables i hi (hTable ▸ hne)
    exact ⟨hTable'.trans hTable, hAddress'.trans hAddress⟩
  · intro i hi hZero hNew
    by_cases hMid : (t.directories dir).tables i = 0
    · exact h'.created i hi hMid hNew
    · obtain ⟨hTable, hAddress⟩ := h'.tables i hi hMid
      rw [hTable, hAddress]
      exact h.created i hi hZero hMid
  · exact fun f hf => h'.taken f (h.taken f hf)

/-! ## The entry that an iteration writes -/

section Entry

variable {owned room : Nat → Nat → Prop} {r : Allocation} {i j : Nat}

@[simp] theorem writePage_directories (loc : Nat × Nat) (idx : Nat) (s : PagingState) :
    (writePage loc idx s).directories = s.directories := rfl

@[simp] theorem writePage_primitiveHeap (loc : Nat × Nat) (idx : Nat) (s : PagingState) :
    (writePage loc idx s).primitiveHeap = s.primitiveHeap := rfl

@[simp] theorem writePage_frameTable (loc : Nat × Nat) (idx : Nat) (s : PagingState) :
    (writePage loc idx s).frameTable = s.frameTable.setAtIndex idx := rfl

@[simp] theorem newTable_primitiveHeap (dir i : Nat) (r : Allocation) (s : PagingState) :
    (newTable dir i r s).primitiveHeap = r.primitiveHeap := rfl

theorem writePage_enteries_self (loc : Nat × Nat) (idx : Nat) (s : PagingState) :
    (writePage loc idx s).enteries loc.1 loc.2 = (s.enteries loc.1 loc.2).mapTo idx := by
  simp [writePage]

theorem writePage_enteries_of_ne {loc : Nat × Nat} (idx : Nat) (s : PagingState) {a k : Nat}
    (hne : a ≠ loc.1 ∨ k ≠ loc.2) : (writePage loc idx s).enteries a k = s.enteries a k := by
  by_cases ha : a = loc.1
  · subst ha
    have hk := hne.resolve_left (not_not.mpr rfl)
    simp [writePage, Function.update_of_ne hk]
  · simp [writePage, Function.update_of_ne ha]

theorem newTable_tables_self : ((newTable dir i r s).directories dir).tables i = r.ptr := by
  simp [newTable]

theorem newTable_tables_of_ne (hne : j ≠ i) :
    ((newTable dir i r s).directories dir).tables j = (s.directories dir).tables j := by
  simp [newTable, Function.update_of_ne hne]

theorem newTable_of_ne {d : Nat} (hne : d ≠ dir) :
    (newTable dir i r s).directories d = s.directories d := by
  simp [newTable, Function.update_of_ne hne]

theorem newTable_addresses_self :
    ((newTable dir i r s).directories dir).tableAddresses i = r.phys ||| 7 := by
  simp [newTable]

theorem newTable_addresses_of_ne (hne : j ≠ i) :
    ((newTable dir i r s).directories dir).tableAddresses j =
      (s.directories dir).tableAddresses j := by
  simp [newTable, Function.update_of_ne hne]

theorem newTable_enteries_self (k : Nat) : (newTable dir i r s).enteries r.ptr k = .zero := by
  simp [newTable]

theorem newTable_enteries_of_ne {a : Nat} (hne : a ≠ r.ptr) (k : Nat) :
    (newTable dir i r s).enteries a k = s.enteries a k := by
  simp [newTable, Function.update_of_ne hne]

/-- In a table that exists, the entry of the page itself is written. -/
theorem lookup_of_table (hWf : WellFormed owned s dir) (hp : p < 1048576)
    (hTable : (s.directories dir).tables (p / 1024) ≠ 0) {q : Nat} (hq : q < 1048576) :
    lookup (writePage ((s.directories dir).tables (p / 1024), p % 1024) idx s) dir q =
      if q = p then (lookup s dir p).mapTo idx else lookup s dir q := by
  have hSame : ((writePage ((s.directories dir).tables (p / 1024), p % 1024) idx
      s).directories dir).tables (q / 1024) = (s.directories dir).tables (q / 1024) := rfl
  by_cases hz : (s.directories dir).tables (q / 1024) = 0
  · have hqp : q ≠ p := by
      rintro rfl
      exact hTable hz
    rw [if_neg hqp, lookup_of_null (hSame.trans hz), lookup_of_null hz]
  · rw [lookup_of_eq hSame hz]
    by_cases hqp : q = p
    · subst hqp
      rw [if_pos rfl, lookup_of_eq rfl hz]
      exact writePage_enteries_self _ _ _
    · rw [if_neg hqp, lookup_of_eq rfl hz]
      apply writePage_enteries_of_ne
      by_cases hSlot : q / 1024 = p / 1024
      · exact Or.inr (by omega)
      · exact Or.inl fun hEq => hSlot (hWf.distinct _ (by omega) _ (by omega) hz hEq)

/-- In a new table the entry that is written is the one its address leads to. -/
theorem lookup_of_missing (hFresh : ∀ j < 1024, (s.directories dir).tables j ≠ r.ptr)
    (hne : r.ptr ≠ 0) {q : Nat} (hq : q < 1048576) :
    lookup (writePage (r.ptr, r.phys % 1024) idx (newTable dir (p / 1024) r s)) dir q =
      if q / 1024 = p / 1024 then
        (if q % 1024 = r.phys % 1024 then Page.zero.mapTo idx else .zero)
      else lookup s dir q := by
  by_cases hSlot : q / 1024 = p / 1024
  · have hTable : ((writePage (r.ptr, r.phys % 1024) idx
        (newTable dir (p / 1024) r s)).directories dir).tables (q / 1024) = r.ptr := by
      rw [hSlot]
      exact newTable_tables_self
    rw [if_pos hSlot, lookup_of_eq hTable hne]
    by_cases hEntry : q % 1024 = r.phys % 1024
    · rw [if_pos hEntry, hEntry]
      exact (writePage_enteries_self _ _ _).trans (by rw [newTable_enteries_self])
    · rw [if_neg hEntry, writePage_enteries_of_ne _ _ (Or.inr hEntry), newTable_enteries_self]
  · have hTable : ((writePage (r.ptr, r.phys % 1024) idx
        (newTable dir (p / 1024) r s)).directories dir).tables (q / 1024) =
          (s.directories dir).tables (q / 1024) := newTable_tables_of_ne hSlot
    rw [if_neg hSlot]
    by_cases hz : (s.directories dir).tables (q / 1024) = 0
    · rw [lookup_of_null (hTable.trans hz), lookup_of_null hz]
    · have hOld := hFresh (q / 1024) (by omega)
      rw [lookup_of_eq hTable hz, lookup_of_eq rfl hz, writePage_enteries_of_ne _ _ (Or.inl hOld),
        newTable_enteries_of_ne hOld]

/-- One page mapped well: only its entry is written, and with the first free frame. -/
theorem mapped_one (hFind : s.frameTable.findFirst = some idx) (hIdx : idx < 1048576)
    (hFrames : t.frameTable = s.frameTable.setAtIndex idx)
    (hLook : ∀ q < 1048576,
      lookup t dir q = if q = p then (lookup s dir p).mapTo idx else lookup s dir q)
    (hp : p < 1048576)
    (hTables : ∀ i < 1024, (s.directories dir).tables i ≠ 0 →
      (t.directories dir).tables i = (s.directories dir).tables i ∧
        (t.directories dir).tableAddresses i = (s.directories dir).tableAddresses i)
    (hCreated : ∀ i < 1024, (s.directories dir).tables i = 0 → (t.directories dir).tables i ≠ 0 →
      (t.directories dir).tableAddresses i = (t.directories dir).tables i ||| 7) :
    Mapped s t dir p 1 := by
  obtain ⟨hLt, hFree, -⟩ := firstFree_spec hFind
  have hEntry : lookup t dir p = (lookup s dir p).mapTo idx := by
    rw [hLook p hp, if_pos rfl]
  have hFrame : (lookup t dir p).frame = idx := by
    rw [hEntry]
    exact Page.frame_mapTo _ hIdx
  refine ⟨?_, ?_, ?_, hTables, hCreated, ?_, ?_⟩
  · intro q hLe hLtq
    obtain rfl : q = p := by omega
    refine ⟨by rw [hEntry]; rfl, ?_⟩
    rw [hFrame, hFrames]
    exact ⟨hLt, hFree, Function.update_self ..⟩
  · intro q q' _ _ _
    omega
  · intro q hq hOut
    rw [hLook q hq, if_neg (by omega)]
  · intro f hf
    rw [hFrames]
    by_cases hfi : f = idx
    · rw [hfi]
      exact Function.update_self ..
    · exact (Function.update_of_ne hfi ..).trans hf
  · rw [hFrames]
    rfl

/-- A table that is missing and a page that is not the first of it: the one case in which the
loop writes another entry than it was asked to. -/
def GoodStart (s : PagingState) (dir p : Nat) : Prop :=
  (s.directories dir).tables (p / 1024) ≠ 0 ∨ p % 1024 = 0

/-- An owned table is never the one an allocator returns next. -/
theorem WellFormed.fresh (hA : PageAligning A owned room) (hWf : WellFormed owned s dir)
    (hRoom : room s.primitiveHeap (n + 1)) :
    ∀ j < 1024, (s.directories dir).tables j ≠ (A 4096 s.primitiveHeap).ptr := by
  intro j hj hEq
  have hOwned := hWf.allocated j hj (hEq ▸ hA.ne_zero _ _ hRoom)
  rw [hEq] at hOwned
  exact hA.fresh _ _ hRoom hOwned

theorem wellFormed_newTable (hA : PageAligning A owned room) (hWf : WellFormed owned s dir)
    (hRoom : room s.primitiveHeap (n + 1)) :
    WellFormed owned (newTable dir i (A 4096 s.primitiveHeap) s) dir := by
  have hFresh := hWf.fresh hA hRoom
  constructor
  · intro j hj k hk hne hEq
    by_cases hji : j = i <;> by_cases hki : k = i
    · rw [hji, hki]
    · rw [hji, newTable_tables_self, newTable_tables_of_ne hki] at hEq
      exact absurd hEq.symm (hFresh k hk)
    · rw [hki, newTable_tables_self, newTable_tables_of_ne hji] at hEq
      exact absurd hEq (hFresh j hj)
    · rw [newTable_tables_of_ne hji] at hne hEq
      rw [newTable_tables_of_ne hki] at hEq
      exact hWf.distinct j hj k hk hne hEq
  · intro j hj hne
    rw [newTable_primitiveHeap]
    by_cases hji : j = i
    · rw [hji, newTable_tables_self]
      exact hA.owns _ _ hRoom
    · rw [newTable_tables_of_ne hji] at hne ⊢
      exact hA.keeps _ _ _ hRoom (hWf.allocated j hj hne)

theorem wellFormed_writePage (loc : Nat × Nat) (hWf : WellFormed owned s dir) :
    WellFormed owned (writePage loc idx s) dir := ⟨hWf.distinct, hWf.allocated⟩

/-- What one iteration leaves for the next. -/
structure Ready (owned room : Nat → Nat → Prop) (s : PagingState) (dir p n : Nat) : Prop where
  wf : WellFormed owned s dir
  space : room s.primitiveHeap n
  frames : n ≤ freeCount s.frameTable.isTaken (min s.frameTable.length 1048576)
  top : p + n ≤ 1048576

theorem Ready.frames_le (h : Ready owned room s dir p n) :
    n ≤ freeCount s.frameTable.isTaken s.frameTable.length :=
  Nat.le_trans h.frames (freeCount_mono (Nat.min_le_left ..))

theorem Ready.findFirst (h : Ready owned room s dir p (n + 1)) :
    ∃ idx, s.frameTable.findFirst = some idx ∧ idx < 1048576 ∧
      n ≤ freeCount (s.frameTable.setAtIndex idx).isTaken (min s.frameTable.length 1048576) := by
  have hPos : 0 < freeCount s.frameTable.isTaken (min s.frameTable.length 1048576) :=
    Nat.lt_of_lt_of_le n.succ_pos h.frames
  obtain ⟨idx, hFind⟩ := firstFree_isSome (Nat.lt_of_lt_of_le n.succ_pos h.frames_le)
  have hIdx := firstFree_lt hFind hPos
  obtain ⟨-, hFree, -⟩ := firstFree_spec hFind
  have hCount := freeCount_update hIdx hFree
  have := h.frames
  exact ⟨idx, hFind, by omega, by unfold FrameTable.setAtIndex; simp only; omega⟩

theorem goodStart_succ (hTable : (t.directories dir).tables (p / 1024) ≠ 0) :
    GoodStart t dir (p + 1) := by
  by_cases hSame : (p + 1) / 1024 = p / 1024
  · exact Or.inl (hSame ▸ hTable)
  · exact Or.inr (by omega)

theorem mapPage_of_table_page (hFind : s.frameTable.findFirst = some idx)
    (hTable : (s.directories dir).tables (p / 1024) ≠ 0) :
    mapPage A dir (4096 * p) s =
      some (writePage ((s.directories dir).tables (p / 1024), p % 1024) idx s) := by
  have hPage : 4096 * p / 4096 = p := by omega
  have hTable' : (s.directories dir).tables (4096 * p / 4096 / 1024) ≠ 0 := by rwa [hPage]
  have hStep := mapPage_of_table (A := A) hFind hTable'
  rwa [hPage] at hStep

theorem mapPage_of_missing_page (hFind : s.frameTable.findFirst = some idx)
    (hTable : (s.directories dir).tables (p / 1024) = 0) :
    mapPage A dir (4096 * p) s =
      some (writePage ((A 4096 s.primitiveHeap).ptr, (A 4096 s.primitiveHeap).phys % 1024) idx
        (newTable dir (p / 1024) (A 4096 s.primitiveHeap) s)) := by
  have hPage : 4096 * p / 4096 = p := by omega
  have hTable' : (s.directories dir).tables (4096 * p / 4096 / 1024) = 0 := by rwa [hPage]
  have hStep := mapPage_of_missing (A := A) hFind hTable'
  rwa [hPage] at hStep

theorem mapped_writePage (hWf : WellFormed owned s dir) (hFind : s.frameTable.findFirst = some idx)
    (hIdx : idx < 1048576) (hp : p < 1048576)
    (hTable : (s.directories dir).tables (p / 1024) ≠ 0) :
    Mapped s (writePage ((s.directories dir).tables (p / 1024), p % 1024) idx s) dir p 1 :=
  mapped_one hFind hIdx rfl (fun _ hq => lookup_of_table hWf hp hTable hq) hp
    (fun _ _ _ => ⟨rfl, rfl⟩) (fun _ _ hi0 hNew => absurd hi0 hNew)

/-- The first page of a missing table. The entry is chosen by the address of the new table, and
that is 0 for a table at a page boundary. -/
theorem mapped_newTable (hFind : s.frameTable.findFirst = some idx) (hIdx : idx < 1048576)
    (hp : p < 1048576) (hTable : (s.directories dir).tables (p / 1024) = 0) (hFirst : p % 1024 = 0)
    (hFresh : ∀ j < 1024, (s.directories dir).tables j ≠ r.ptr) (hne : r.ptr ≠ 0)
    (hPhys : r.phys = r.ptr) (hAligned : r.ptr % 4096 = 0) :
    Mapped s (writePage (r.ptr, r.phys % 1024) idx (newTable dir (p / 1024) r s)) dir p 1 := by
  have hZero : r.phys % 1024 = 0 := by omega
  refine mapped_one hFind hIdx rfl (fun q hq => ?_) hp (fun i hi hi0 => ?_)
    (fun i hi hi0 hNew => ?_)
  · rw [lookup_of_missing hFresh hne hq, hZero]
    by_cases hqp : q = p
    · subst hqp
      rw [if_pos rfl, if_pos hFirst, if_pos rfl, lookup_of_null hTable]
    · rw [if_neg hqp]
      by_cases hSlot : q / 1024 = p / 1024
      · rw [if_pos hSlot, if_neg (by omega), lookup_of_null (hSlot ▸ hTable)]
      · rw [if_neg hSlot]
  · have hip : i ≠ p / 1024 := by
      rintro rfl
      exact hi0 hTable
    exact ⟨newTable_tables_of_ne hip, newTable_addresses_of_ne hip⟩
  · have hip : i = p / 1024 := by
      by_contra hip
      exact hNew ((newTable_tables_of_ne hip).trans hi0)
    subst hip
    rw [writePage_directories, newTable_addresses_self, newTable_tables_self, hPhys]

/-- One iteration leaves the next page a good start, whatever its own was, and it maps its own page
exactly when that had one. -/
theorem mapPage_ready (hA : PageAligning A owned room) (h : Ready owned room s dir p (n + 1)) :
    ∃ t, mapPage A dir (4096 * p) s = some t ∧ Ready owned room t dir (p + 1) n ∧
      GoodStart t dir (p + 1) ∧ (GoodStart s dir p → Mapped s t dir p 1) ∧
      (¬ GoodStart s dir p → (lookup t dir p).isPresent = false) := by
  obtain ⟨idx, hFind, hIdx, hLeft⟩ := h.findFirst
  have hTop := h.top
  have hp : p < 1048576 := by omega
  by_cases hTable : (s.directories dir).tables (p / 1024) = 0
  · have hAligned := hA.aligned _ _ h.space
    have hPhys := hA.phys _ _ h.space
    have hne := hA.ne_zero _ _ h.space
    have hFresh := h.wf.fresh hA h.space
    refine ⟨_, mapPage_of_missing_page hFind hTable,
      ⟨wellFormed_writePage _ (wellFormed_newTable hA h.wf h.space), hA.rest _ _ h.space, hLeft,
        by omega⟩, goodStart_succ ?_, fun hGood => ?_, fun hBad => ?_⟩
    · rw [writePage_directories, newTable_tables_self]
      exact hne
    · have hFirst : p % 1024 = 0 := hGood.resolve_left (not_not.mpr hTable)
      exact mapped_newTable hFind hIdx hp hTable hFirst hFresh hne hPhys hAligned
    · have hNotFirst : p % 1024 ≠ 0 := fun hFirst => hBad (Or.inr hFirst)
      rw [lookup_of_missing hFresh hne hp, if_pos rfl, if_neg (by omega)]
      rfl
  · refine ⟨_, mapPage_of_table_page hFind hTable,
      ⟨wellFormed_writePage _ h.wf, hA.mono _ _ h.space, hLeft, by omega⟩,
      goodStart_succ hTable, fun _ => mapped_writePage h.wf hFind hIdx hp hTable,
      fun hBad => absurd (Or.inl hTable) hBad⟩

/-- From a good start the loop maps all of its pages, and is ready for `k` more. -/
theorem mapLoop_mapped {k : Nat} (hA : PageAligning A owned room)
    (h : Ready owned room s dir p (n + k)) (hGood : GoodStart s dir p)
    (hStop : stop = 4096 * (p + n)) (hLt : stop < 4294967296) (hFuel : n < fuel) :
    ∃ t, mapLoop A dir stop fuel (4096 * p) s = some (n, t) ∧ Mapped s t dir p n ∧
      Ready owned room t dir (p + n) k := by
  obtain ⟨fuel, rfl⟩ : ∃ k, fuel = k + 1 := ⟨fuel - 1, by omega⟩
  induction n generalizing s p fuel with
  | zero =>
    rw [Nat.zero_add] at h
    refine ⟨s, ?_, .refl s dir p, h⟩
    rw [mapLoop, if_neg (by omega)]
  | succ n ih =>
    obtain ⟨fuel, rfl⟩ : ∃ k, fuel = k + 1 := ⟨fuel - 1, by omega⟩
    rw [Nat.add_right_comm] at h
    obtain ⟨u, hPage, hReady, hNext, hMapped, -⟩ := mapPage_ready hA h
    obtain ⟨t, hLoop, hRest, hLast⟩ := ih hReady hNext (by omega) fuel (by omega)
    rw [Nat.add_assoc, Nat.add_comm 1 n] at hLast
    have hTop := h.top
    refine ⟨t, ?_, (hMapped hGood).succ hRest (by omega), hLast⟩
    rw [mapLoop, if_pos (by omega), hPage, Option.bind_some,
      Nat.mod_eq_of_lt (by omega : 4096 * p + 4096 < 4294967296),
      show 4096 * p + 4096 = 4096 * (p + 1) by omega, hLoop]
    rfl

end Entry

/-! ## The allocator of the kernel -/

/-- The tables that lie below the end of the primitive heap. -/
def BelowHeap (heap a : Nat) : Prop := a + 4096 ≤ heap

/-- The heap can grow by `n` pages before it reaches the end of the address space. -/
structure HeapRoom (heap n : Nat) : Prop where
  pos : 0 < heap
  below : (heap + 4095) / 4096 + n < 1048576

theorem HeapRoom.mono {heap n k : Nat} (h : HeapRoom heap n) (hLe : k ≤ n) : HeapRoom heap k := by
  have hBelow := h.below
  exact ⟨h.pos, by omega⟩

/-- An aligned request is served from the next page boundary. -/
theorem allocate_eq {size heap : Nat} (h : (heap + 4095) / 4096 * 4096 + size < 4294967296) :
    allocateWPointer size heap true =
      ⟨(heap + 4095) / 4096 * 4096, (heap + 4095) / 4096 * 4096,
        (heap + 4095) / 4096 * 4096 + size⟩ := by
  unfold allocateWPointer
  by_cases hAligned : heap % 4096 = 0
  · have hUp : (heap + 4095) / 4096 * 4096 = heap := by omega
    rw [hUp] at h ⊢
    simp [hAligned, Nat.mod_eq_of_lt h]
  · have hUp : (heap - heap % 4096 + 4096) % 4294967296 = (heap + 4095) / 4096 * 4096 := by omega
    simp [hAligned, hUp, Nat.mod_eq_of_lt h]

theorem standartAllocator_eq {heap : Nat} (h : HeapRoom heap 1) :
    standartAllocator 4096 heap =
      ⟨(heap + 4095) / 4096 * 4096, (heap + 4095) / 4096 * 4096,
        (heap + 4095) / 4096 * 4096 + 4096⟩ :=
  allocate_eq (by have := h.below; omega)

theorem standartAllocator_aligning : PageAligning standartAllocator BelowHeap HeapRoom := by
  have hEq : ∀ n h, HeapRoom h (n + 1) → standartAllocator 4096 h =
      ⟨(h + 4095) / 4096 * 4096, (h + 4095) / 4096 * 4096, (h + 4095) / 4096 * 4096 + 4096⟩ :=
    fun n h hRoom => standartAllocator_eq (hRoom.mono (by omega))
  constructor
  · intro n h hRoom
    rw [hEq n h hRoom]
    simp only
    omega
  · intro n h hRoom
    rw [hEq n h hRoom]
  · intro n h hRoom
    have := hRoom.pos
    rw [hEq n h hRoom]
    simp only
    omega
  · intro n h hRoom
    rw [hEq n h hRoom]
    unfold BelowHeap
    simp only
    omega
  · intro n h hRoom
    rw [hEq n h hRoom]
    unfold BelowHeap
    simp only
    omega
  · intro n h a hRoom hOwned
    rw [hEq n h hRoom]
    unfold BelowHeap at hOwned ⊢
    simp only
    omega
  · intro n h hRoom
    have hBelow := hRoom.below
    have hNext : HeapRoom ((h + 4095) / 4096 * 4096 + 4096) n := ⟨by omega, by omega⟩
    rw [hEq n h hRoom]
    exact hNext
  · exact fun n h hRoom => hRoom.mono (by omega)

/-- The heap only grows while there is room. -/
theorem standartAllocator_aligning_above (bottom : Nat) :
    PageAligning standartAllocator BelowHeap fun h n => HeapRoom h n ∧ bottom ≤ h where
  aligned n h hRoom := standartAllocator_aligning.aligned n h hRoom.1
  phys n h hRoom := standartAllocator_aligning.phys n h hRoom.1
  ne_zero n h hRoom := standartAllocator_aligning.ne_zero n h hRoom.1
  fresh n h hRoom := standartAllocator_aligning.fresh n h hRoom.1
  owns n h hRoom := standartAllocator_aligning.owns n h hRoom.1
  keeps n h a hRoom := standartAllocator_aligning.keeps n h a hRoom.1
  rest n h hRoom := by
    refine ⟨standartAllocator_aligning.rest n h hRoom.1, ?_⟩
    have hBottom := hRoom.2
    rw [standartAllocator_eq (hRoom.1.mono (by omega))]
    simp only
    omega
  mono n h hRoom := ⟨standartAllocator_aligning.mono n h hRoom.1, hRoom.2⟩

/-! ## Regions -/

/-- `map_region` returns the number of pages of the region, and has mapped them. -/
def MapsExactly (start stop : Nat) (A : MemoryAlloctor) (dir : Nat) (s : PagingState) : Prop :=
  ∃ t, mapRegion start stop A dir s = some ((stop - start) / 4096, t) ∧
    Mapped s t (target dir s) (start / 4096) ((stop - start) / 4096)

/-- A region of `n` pages from a good start, with room for `k` more. -/
theorem mapRegion_mapped {owned room : Nat → Nat → Prop} {k : Nat} (hA : PageAligning A owned room)
    (h : Ready owned room s dir p (n + k)) (hDir : dir ≠ 0) (hGood : GoodStart s dir p)
    (hLt : 4096 * (p + n) < 4294967296) :
    ∃ t, mapRegion (4096 * p) (4096 * (p + n)) A dir s = some (n, t) ∧ Mapped s t dir p n ∧
      Ready owned room t dir (p + n) k := by
  have hFrames := h.frames
  have hAll : freeCount s.frameTable.isTaken (min s.frameTable.length 1048576) ≤
      min s.frameTable.length 1048576 := freeCount_le
  rw [mapRegion, target, if_neg hDir]
  exact mapLoop_mapped hA h hGood rfl hLt (by omega)

/-- Distinct frames that were free are no more than there were. -/
theorem Mapped.frames_le (h : Mapped s t dir p n) :
    n ≤ freeCount s.frameTable.isTaken (min s.frameTable.length 1048576) := by
  have hNodup : ((List.range n).map fun k => (lookup t dir (p + k)).frame).Nodup := by
    refine List.pairwise_map.mpr (List.pairwise_lt_range.imp_of_mem ?_)
    intro a b _ hb hab
    have := List.mem_range.mp hb
    exact h.own _ _ (by omega) (by omega) (by omega)
  have hAll : ∀ i ∈ (List.range n).map fun k => (lookup t dir (p + k)).frame,
      i < min s.frameTable.length 1048576 ∧ s.frameTable.isTaken i = false := by
    intro i hi
    obtain ⟨k, hk, rfl⟩ := List.mem_map.mp hi
    have hk' := List.mem_range.mp hk
    obtain ⟨-, hLt, hFree, -⟩ := h.present (p + k) (by omega) (by omega)
    have := (lookup t dir (p + k)).frame_lt
    exact ⟨by omega, hFree⟩
  simpa using length_le_freeCount hNodup hAll

/-- A region is mapped as it should be exactly when its first page has a good start and there are
frames with 20-bit numbers for all of its pages. -/
theorem mapsExactly_iff {owned room : Nat → Nat → Prop} {start : Nat}
    (hA : PageAligning A owned room) (hStart : start % 4096 = 0) (hStop : stop % 4096 = 0)
    (hLt : start < stop) (hTop : stop < 4294967296) (hWf : WellFormed owned s (target dir s))
    (hRoom : room s.primitiveHeap ((stop - start) / 4096)) :
    MapsExactly start stop A dir s ↔
      GoodStart s (target dir s) (start / 4096) ∧
        (stop - start) / 4096 ≤
          freeCount s.frameTable.isTaken (min s.frameTable.length 1048576) := by
  obtain ⟨p, rfl⟩ : ∃ p, start = 4096 * p := ⟨start / 4096, by omega⟩
  obtain ⟨n, rfl⟩ : ∃ n, stop = 4096 * (p + (n + 1)) := ⟨stop / 4096 - p - 1, by omega⟩
  have hCount : (4096 * (p + (n + 1)) - 4096 * p) / 4096 = n + 1 := by omega
  have hPage : 4096 * p / 4096 = p := by omega
  unfold MapsExactly mapRegion mapVirtToPhys
  rw [hCount] at hRoom ⊢
  rw [hPage]
  have hFuel : n + 1 ≤ freeCount s.frameTable.isTaken (min s.frameTable.length 1048576) →
      n + 1 < s.frameTable.length + 1 := by
    intro hFrames
    have hAll : freeCount s.frameTable.isTaken (min s.frameTable.length 1048576) ≤
        min s.frameTable.length 1048576 := freeCount_le
    omega
  constructor
  · rintro ⟨t, hLoop, hMapped⟩
    have hFrames := hMapped.frames_le
    refine ⟨?_, hFrames⟩
    by_contra hBad
    -- the first iteration leaves the first page unmapped, and no later one comes back to it
    have hReady : Ready owned room s (target dir s) p (n + 1) := ⟨hWf, hRoom, hFrames, by omega⟩
    obtain ⟨u, hFirst, hNext, hGood, -, hAbsent⟩ := mapPage_ready hA hReady
    have hEnough : n < s.frameTable.length := by
      have := hFuel hFrames
      omega
    obtain ⟨t', hRest, hLater, -⟩ := mapLoop_mapped (k := 0) hA hNext hGood
      (by omega : 4096 * (p + (n + 1)) = 4096 * (p + 1 + n)) hTop hEnough
    rw [mapLoop, if_pos hLt, hFirst, Option.bind_some,
      Nat.mod_eq_of_lt (by omega : 4096 * p + 4096 < 4294967296),
      show 4096 * p + 4096 = 4096 * (p + 1) by omega, hRest] at hLoop
    cases hLoop
    have hPresent := (hMapped.present p (Nat.le_refl p) (by omega)).1
    rw [hLater.other p (by omega) (Or.inl (by omega)), hAbsent hBad] at hPresent
    cases hPresent
  · rintro ⟨hGood, hFrames⟩
    obtain ⟨t, hLoop, hMapped, -⟩ := mapLoop_mapped (k := 0) hA ⟨hWf, hRoom, hFrames, by omega⟩
      hGood rfl hTop (hFuel hFrames)
    exact ⟨t, hLoop, hMapped⟩

/-- An empty directory behind the kernel image, and eight free frames. -/
def emptyDirectory : PagingState where
  primitiveHeap := 0x110000
  frameTable := .create 8
  enteries := fun _ _ => .zero
  directories := fun _ => .zero
  pagingCurrentDirectory := 0x10E000
  kernelDirectory := 0x10C000
  kernelSize := 0x10C000
  baseKernelTablesSize := 1
  cr3 := 0x10E000
  pagingEnabled := true

theorem mapsExactly_iff_table_start :
    MapsExactly 0x400000 0x403000 standartAllocator 0x10E000 emptyDirectory :=
  (mapsExactly_iff standartAllocator_aligning (by decide) (by decide) (by decide) (by decide)
    ⟨fun _ _ _ _ hne => absurd rfl hne, fun _ _ hne => absurd rfl hne⟩
    ⟨by decide, by decide⟩).mpr ⟨Or.inr (by decide), by decide⟩

/-- The sixth page of a table that is missing: the entry that is written is the first one. -/
theorem not_mapsExactly_of_missing_table :
    1 ≤ freeCount emptyDirectory.frameTable.isTaken emptyDirectory.frameTable.length ∧
      ¬ MapsExactly 0x5000 0x6000 standartAllocator 0x10E000 emptyDirectory := by
  refine ⟨by decide, ?_⟩
  rintro ⟨t, hRun, hMapped⟩
  have hAbsent : (mapRegion 0x5000 0x6000 standartAllocator 0x10E000 emptyDirectory).map
      (fun r => (lookup r.2 0x10E000 5).isPresent) = some false := by
    decide
  rw [hRun] at hAbsent
  have hPresent : (lookup t 0x10E000 5).isPresent = true :=
    (hMapped.present 5 (by decide) (by decide)).1
  simp [hPresent] at hAbsent

end Juos.Paging
