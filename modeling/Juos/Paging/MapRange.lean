import Juos.Paging.MapRegion
import Mathlib.Data.List.Nodup

/-!
# Which pages the mapping loop comes to

The loop of `_map_virt_to_phys` compares 32-bit addresses that it advances by a page at a time.
`visits` is the loop with the addresses it comes to. It should come once to each page that the
range `[start, end)` meets. A start that lies later in its page than the last address does in its
own misses the last page, an upper bound that no address in step with the start reaches is never
met, and for the last page of the address space the upper bound is 0.
-/

namespace Juos.Paging

open Machine

variable {A : MemoryAlloctor} {dir start stop top fuel lo hi q n addr : Nat} {s t : PagingState}
  {tops : List Nat}

/-- The loop of `_map_virt_to_phys` with the values that `top` takes. -/
def visits (A : MemoryAlloctor) (dir stop : Nat) :
    Nat → Nat → PagingState → Option (List Nat × PagingState)
  | 0, _, _ => none
  | fuel + 1, top, s =>
    if top < stop then
      (mapPage A dir top s).bind fun s =>
        (visits A dir stop fuel ((top + 4096) % 4294967296) s).map fun r => (top :: r.1, r.2)
    else some ([], s)

theorem mapLoop_eq_visits (fuel top : Nat) (s : PagingState) :
    mapLoop A dir stop fuel top s =
      (visits A dir stop fuel top s).map fun r => (r.1.length, r.2) := by
  induction fuel generalizing top s with
  | zero => rfl
  | succ fuel ih =>
    rw [mapLoop, visits]
    by_cases hTop : top < stop
    · rw [if_pos hTop, if_pos hTop]
      cases mapPage A dir top s with
      | none => rfl
      | some u =>
        rw [Option.bind_some, Option.bind_some, ih, Option.map_map, Option.map_map]
        rfl
    · rw [if_neg hTop, if_neg hTop]
      rfl

/-! ## The pages of a range -/

/-- The page `q` has an address in `[lo, hi)`. -/
def Meets (lo hi q : Nat) : Prop := ∃ a, lo ≤ a ∧ a < hi ∧ a / 4096 = q

theorem meets_iff (h : lo < hi) : Meets lo hi q ↔ lo / 4096 ≤ q ∧ q ≤ (hi - 1) / 4096 := by
  constructor
  · rintro ⟨a, hLo, hHi, rfl⟩
    omega
  · rintro ⟨hFirst, hLast⟩
    by_cases hStart : lo ≤ 4096 * q
    · exact ⟨4096 * q, hStart, by omega, by omega⟩
    · exact ⟨lo, Nat.le_refl lo, h, by omega⟩

/-- `_map_virt_to_phys(start, stop)` returns after one iteration for each page that the range
`[lo, hi)` meets, and comes to each of them once. -/
def Covers (A : MemoryAlloctor) (dir start stop : Nat) (s : PagingState) (lo hi : Nat) : Prop :=
  ∃ tops t, visits A dir stop (s.frameTable.length + 1) start s = some (tops, t) ∧
    mapVirtToPhys start stop dir A s = some (tops.length, t) ∧
    (tops.map (· / 4096)).Nodup ∧ ∀ q, q ∈ tops.map (· / 4096) ↔ Meets lo hi q

theorem Covers.of_visits (h : visits A dir stop (s.frameTable.length + 1) start s = some (tops, t))
    (hNodup : (tops.map (· / 4096)).Nodup)
    (hMem : ∀ q, q ∈ tops.map (· / 4096) ↔ Meets lo hi q) : Covers A dir start stop s lo hi := by
  refine ⟨tops, t, h, ?_, hNodup, hMem⟩
  rw [mapVirtToPhys, mapLoop_eq_visits, h]
  rfl

/-! ## The addresses of the loop -/

/-- The addresses from `top` on, one page apart. -/
def inStep (top n : Nat) : List Nat := (List.range n).map fun i => top + 4096 * i

theorem inStep_succ (top n : Nat) : inStep top (n + 1) = top :: inStep (top + 4096) n := by
  unfold inStep
  rw [List.range_succ_eq_map, List.map_cons, List.map_map]
  congr 1
  apply List.map_congr_left
  intro i _
  change top + 4096 * (i + 1) = top + 4096 + 4096 * i
  omega

theorem nodup_inStep (top n : Nat) : ((inStep top n).map (· / 4096)).Nodup := by
  unfold inStep
  rw [List.map_map]
  refine List.Nodup.map (fun i j hEq => ?_) List.nodup_range
  change (top + 4096 * i) / 4096 = (top + 4096 * j) / 4096 at hEq
  omega

theorem mem_inStep : q ∈ (inStep top n).map (· / 4096) ↔ top / 4096 ≤ q ∧ q < top / 4096 + n := by
  unfold inStep
  rw [List.map_map, List.mem_map]
  constructor
  · rintro ⟨i, hi, rfl⟩
    have hLt := List.mem_range.mp hi
    change top / 4096 ≤ (top + 4096 * i) / 4096 ∧ (top + 4096 * i) / 4096 < top / 4096 + n
    omega
  · rintro ⟨hFirst, hLast⟩
    refine ⟨q - top / 4096, List.mem_range.mpr (by omega), ?_⟩
    change (top + 4096 * (q - top / 4096)) / 4096 = q
    omega

/-- A loop that ends has come to the addresses in step with its start up to the upper bound, and
has taken a frame for each. -/
theorem visits_spec (hTop : top < 4294967296) (h : visits A dir stop fuel top s = some (tops, t)) :
    tops = inStep top tops.length ∧ (∀ i < tops.length, top + 4096 * i < stop) ∧
      stop ≤ top + 4096 * tops.length ∧ top + 4096 * tops.length < 4294967296 ∧
      freeCount t.frameTable.isTaken t.frameTable.length + tops.length =
        freeCount s.frameTable.isTaken s.frameTable.length := by
  induction fuel generalizing top s tops with
  | zero => cases h
  | succ fuel ih =>
    have hRun : mapLoop A dir stop (fuel + 1) top s = some (tops.length, t) := by
      rw [mapLoop_eq_visits, h]
      rfl
    have hReach := mapLoop_reach hTop hRun
    rw [visits] at h
    split at h
    case isFalse hEnd =>
      cases h
      exact ⟨rfl, fun i hi => absurd hi (Nat.not_lt_zero i), by omega, hTop, rfl⟩
    case isTrue hLt =>
      obtain ⟨u, hPage, hRest⟩ := Option.bind_eq_some_iff.mp h
      obtain ⟨⟨later, v⟩, hLoop, hEq⟩ := Option.map_eq_some_iff.mp hRest
      simp only [Prod.mk.injEq] at hEq
      obtain ⟨rfl, rfl⟩ := hEq
      rw [List.length_cons] at hReach ⊢
      have hLess := freeCount_mapPage hPage
      rw [Nat.mod_eq_of_lt (by omega : top + 4096 < 4294967296)] at hLoop
      obtain ⟨hTops, hBelow, -, -, hFrames⟩ := ih (by omega) hLoop
      refine ⟨?_, fun i hi => ?_, hReach.1, hReach.2, by omega⟩
      · rw [inStep_succ, ← hTops]
      · cases i with
        | zero => omega
        | succ i =>
          have := hBelow i (by omega)
          omega

/-- With frames for them all, the loop comes to all addresses in step up to the upper bound. -/
theorem visits_isSome (hBelow : ∀ i < n, top + 4096 * i < stop) (hStop : stop ≤ top + 4096 * n)
    (hLt : top + 4096 * n < 4294967296)
    (hFrames : n ≤ freeCount s.frameTable.isTaken s.frameTable.length) (hFuel : n < fuel) :
    ∃ t, visits A dir stop fuel top s = some (inStep top n, t) := by
  induction n generalizing top s fuel with
  | zero =>
    obtain ⟨fuel, rfl⟩ : ∃ k, fuel = k + 1 := ⟨fuel - 1, by omega⟩
    refine ⟨s, ?_⟩
    rw [visits, if_neg (by omega), inStep, List.range_zero, List.map_nil]
  | succ n ih =>
    obtain ⟨fuel, rfl⟩ : ∃ k, fuel = k + 1 := ⟨fuel - 1, by omega⟩
    have hWrap : top + 4096 < 4294967296 := by
      have hStep : top + 4096 ≤ top + 4096 * (n + 1) := by omega
      exact Nat.lt_of_le_of_lt hStep hLt
    obtain ⟨u, hPage, hLeft⟩ : ∃ u, mapPage A dir top s = some u ∧
        n ≤ freeCount u.frameTable.isTaken u.frameTable.length := mapPage_isSome hFrames
    have hNext : ∀ i < n, top + 4096 + 4096 * i < stop := by
      intro i hi
      have := hBelow (i + 1) (by omega)
      omega
    obtain ⟨t, hLoop⟩ := ih hNext (by omega) (by omega) hLeft (by omega : n < fuel)
    have hFirst : top < stop := hBelow 0 (by omega)
    refine ⟨t, ?_⟩
    rw [visits, if_pos hFirst, hPage, Option.bind_some, Nat.mod_eq_of_lt hWrap, hLoop,
      inStep_succ]
    rfl

/-! ## Ranges -/

/-- The last address of the range does not lie earlier in its page than the first one does, some
address in step with the first one lies behind it, and there is a frame for every page. -/
def Reachable (s : PagingState) (start stop : Nat) : Prop :=
  start % 4096 ≤ (stop - 1) % 4096 ∧ stop ≤ 4294963200 + start % 4096 ∧
    (stop - 1) / 4096 + 1 - start / 4096 ≤ freeCount s.frameTable.isTaken s.frameTable.length

theorem covers_empty (A : MemoryAlloctor) (dir start : Nat) (s : PagingState) :
    Covers A dir start start s start start := by
  have hRun : visits A dir start (s.frameTable.length + 1) start s = some ([], s) := by
    rw [visits, if_neg (Nat.lt_irrefl start)]
  refine .of_visits hRun List.nodup_nil fun q => ⟨fun hq => absurd hq (by simp), ?_⟩
  rintro ⟨a, hLo, hHi, -⟩
  exact absurd (Nat.lt_of_le_of_lt hLo hHi) (Nat.lt_irrefl start)

theorem reachable_of_covers (hLt : start < stop) (hStop : stop < 4294967296)
    (h : Covers A dir start stop s start stop) : Reachable s start stop := by
  obtain ⟨tops, t, hRun, -, hNodup, hMem⟩ := h
  obtain ⟨hTops, hBelow, hReach, hEnd, hFrames⟩ := visits_spec (Nat.lt_trans hLt hStop) hRun
  have hPages : ∀ q, start / 4096 ≤ q ∧ q < start / 4096 + tops.length ↔
      start / 4096 ≤ q ∧ q ≤ (stop - 1) / 4096 := by
    intro q
    rw [← mem_inStep, ← hTops, hMem, meets_iff hLt]
  have hLast := (hPages ((stop - 1) / 4096)).mpr ⟨by omega, Nat.le_refl _⟩
  have hStep := hBelow (tops.length - 1) (by omega)
  have hNext := (hPages (start / 4096 + tops.length - 1)).mp (by omega)
  refine ⟨by omega, by omega, ?_⟩
  omega

theorem covers_of_reachable (hLt : start < stop) (h : Reachable s start stop) :
    Covers A dir start stop s start stop := by
  obtain ⟨hOffset, hTop, hFrames⟩ := h
  have hCount : freeCount s.frameTable.isTaken s.frameTable.length ≤ s.frameTable.length :=
    freeCount_le
  generalize hn : (stop - 1) / 4096 + 1 - start / 4096 = n at hFrames
  obtain ⟨t, hRun⟩ : ∃ t, visits A dir stop (s.frameTable.length + 1) start s =
      some (inStep start n, t) := by
    apply visits_isSome _ (by omega) (by omega) hFrames (by omega)
    intro i hi
    omega
  refine .of_visits hRun (nodup_inStep start n) fun q => ?_
  rw [mem_inStep, meets_iff hLt]
  omega

/-! ## The page of a fault -/

def faultBase (addr : Nat) : Nat := addr - addr % 4096

def faultTop (addr : Nat) : Nat := (faultBase addr + 4096) % 4294967296

/-- The range that `page_fault_handler` asks for. -/
theorem pageFaultHandler_eq {errCode : Nat} (hMissing : errCode % 2 = 0) (addr dir : Nat)
    (s : PagingState) : pageFaultHandler errCode addr (some dir) s =
      (mapRegion (faultBase addr) (faultTop addr) standartAllocator dir s).map Prod.snd := by
  unfold pageFaultHandler
  exact if_pos hMissing

theorem covers_fault_iff (hAddr : addr < 4294967296) :
    Covers A dir (faultBase addr) (faultTop addr) s (faultBase addr) (faultBase addr + 4096) ↔
      faultBase addr + 4096 < 4294967296 ∧
        0 < freeCount s.frameTable.isTaken s.frameTable.length := by
  have hAligned : faultBase addr % 4096 = 0 := by
    unfold faultBase
    omega
  have hBase : faultBase addr < 4294967296 := by
    unfold faultBase
    omega
  generalize hb : faultBase addr = base at hAligned hBase
  unfold faultTop
  rw [hb]
  constructor
  · rintro ⟨tops, t, hRun, -, -, hMem⟩
    obtain ⟨hTops, hBelow, -, -, hFrames⟩ := visits_spec hBase hRun
    have hPage := (hMem (base / 4096)).mpr ⟨base, Nat.le_refl base, by omega, rfl⟩
    rw [hTops, mem_inStep] at hPage
    have hFirst := hBelow 0 (by omega)
    exact ⟨by omega, by omega⟩
  · rintro ⟨hTop, hFrame⟩
    rw [Nat.mod_eq_of_lt hTop]
    apply covers_of_reachable (by omega)
    exact ⟨by omega, by omega, by omega⟩

/-- When the loop comes to each page of a range, and of the page that is mapped after a fault, once
and then ends. -/
theorem covers_iff (A : MemoryAlloctor) (dir : Nat) (s : PagingState) :
    (∀ start stop, start ≤ stop → stop < 4294967296 →
      (Covers A dir start stop s start stop ↔ start = stop ∨ Reachable s start stop)) ∧
    ∀ addr < 4294967296,
      (Covers A dir (faultBase addr) (faultTop addr) s (faultBase addr) (faultBase addr + 4096) ↔
        faultBase addr + 4096 < 4294967296 ∧
          0 < freeCount s.frameTable.isTaken s.frameTable.length) := by
  refine ⟨fun start stop hLe hStop => ?_, fun addr hAddr => covers_fault_iff hAddr⟩
  rcases Nat.eq_or_lt_of_le hLe with rfl | hLt
  · exact iff_of_true (covers_empty A dir start s) (Or.inl rfl)
  · constructor
    · intro h
      exact Or.inr (reachable_of_covers hLt hStop h)
    · rintro (rfl | h)
      · exact covers_empty A dir start s
      · exact covers_of_reachable hLt h

theorem covers_three_pages :
    Covers standartAllocator 0x10E000 0x400123 0x403000 emptyDirectory 0x400123 0x403000 ∧
      Covers standartAllocator 0x10E000 (faultBase 0x400123) (faultTop 0x400123) emptyDirectory
        (faultBase 0x400123) (faultBase 0x400123 + 4096) :=
  ⟨((covers_iff standartAllocator 0x10E000 emptyDirectory).1 _ _ (by decide) (by decide)).mpr
      (Or.inr ⟨by decide, by decide, by decide⟩),
    ((covers_iff standartAllocator 0x10E000 emptyDirectory).2 _ (by decide)).mpr
      ⟨by decide, by decide⟩⟩

/-- Two bytes across a page boundary: the second page is missed. A range that ends with the address
space: the loop goes on until no frame is left. A fault in the last page: nothing is mapped. -/
theorem not_covers :
    ¬ Covers standartAllocator 0x10E000 0x400FFF 0x401001 emptyDirectory 0x400FFF 0x401001 ∧
    ¬ Covers standartAllocator 0x10E000 0xFFFFF000 0xFFFFFFFF emptyDirectory
      0xFFFFF000 0xFFFFFFFF ∧
    ¬ Covers standartAllocator 0x10E000 (faultBase 0xFFFFF123) (faultTop 0xFFFFF123) emptyDirectory
      (faultBase 0xFFFFF123) (faultBase 0xFFFFF123 + 4096) := by
  have hTwo : (visits standartAllocator 0x10E000 0x401001 9 0x400FFF emptyDirectory).map Prod.fst =
      some [0x400FFF] := by decide
  have hWraps : (visits standartAllocator 0x10E000 0xFFFFFFFF 9 0xFFFFF000 emptyDirectory).map
      Prod.fst = none := by decide
  have hLast : (visits standartAllocator 0x10E000 0 9 0xFFFFF000 emptyDirectory).map Prod.fst =
      some [] := by decide
  refine ⟨?_, ?_, ?_⟩
  · rintro ⟨tops, t, hRun, -, -, hMem⟩
    have hVisits : visits standartAllocator 0x10E000 0x401001 9 0x400FFF emptyDirectory =
        some (tops, t) := hRun
    rw [hVisits] at hTwo
    cases hTwo
    exact absurd ((hMem 0x401).mpr ⟨0x401000, by decide, by decide, by decide⟩) (by decide)
  · rintro ⟨tops, t, hRun, -⟩
    have hVisits : visits standartAllocator 0x10E000 0xFFFFFFFF 9 0xFFFFF000 emptyDirectory =
        some (tops, t) := hRun
    rw [hVisits] at hWraps
    cases hWraps
  · rintro ⟨tops, t, hRun, -, -, hMem⟩
    have hVisits : visits standartAllocator 0x10E000 0 9 0xFFFFF000 emptyDirectory =
        some (tops, t) := hRun
    rw [hVisits] at hLast
    cases hLast
    exact absurd ((hMem 0xFFFFF).mpr ⟨0xFFFFF000, by decide, by decide, by decide⟩) (by simp)

end Juos.Paging
