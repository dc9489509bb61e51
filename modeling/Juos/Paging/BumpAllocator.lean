import Juos.Machine.Memory
import Juos.Paging.MapRegion

/-!
# The primitive heap as a bump allocator

`Allocate` and `Allocate_WPointer` on the word `__primitive_heap`, with the mask and the sum that
round it up, and the memory that `phys` points to. Rounding never moves the word backwards as long
as it does not wrap (`start_eq`). The regions of any sequence of calls then lie one behind the other
(`serve_sound`).
-/

namespace Juos.Paging

open Machine

/-! ## Rounding -/

/-- `HEAP_ALIGNMENT` -/
def heapAlignment : UInt32 := 0xFFFFF000

/-- `PAGE_SIZE` -/
def pageSize : UInt32 := 0x1000

/-- `IS_ALIGNED` -/
def isAligned (addr : UInt32) : Bool := addr &&& ~~~heapAlignment == 0

theorem and_shiftLeft (x m k : Nat) : x &&& (m <<< k) = ((x >>> k) &&& m) <<< k := by
  refine Nat.eq_of_testBit_eq fun i => ?_
  rcases Nat.lt_or_ge i k with hLow | hHigh
  · simp [Nat.not_le_of_lt hLow]
  · obtain ⟨j, rfl⟩ := Nat.exists_eq_add_of_le hHigh
    simp [Nat.testBit_shiftRight]

/-- The mask rounds down to a page boundary. -/
theorem and_heapAlignment (addr : UInt32) :
    (addr &&& heapAlignment).toNat = addr.toNat / 4096 * 4096 := by
  have hMask : heapAlignment.toNat = (2 ^ 20 - 1) <<< 12 := rfl
  have hPage : addr.toNat / 4096 < 2 ^ 20 := by
    have := addr.toNat_lt
    omega
  rw [UInt32.toNat_and, hMask, and_shiftLeft, Nat.and_two_pow_sub_one_eq_mod, Nat.shiftLeft_eq,
    Nat.shiftRight_eq_div_pow, Nat.mod_eq_of_lt hPage]

theorem isAligned_iff (addr : UInt32) : isAligned addr = true ↔ addr.toNat % 4096 = 0 := by
  have hMask : (~~~heapAlignment).toNat = 2 ^ 12 - 1 := rfl
  rw [isAligned, beq_iff_eq, ← UInt32.toNat_inj, UInt32.toNat_and, hMask,
    Nat.and_two_pow_sub_one_eq_mod]
  rfl

/-! ## The two functions -/

/-- `__primitive_heap`, and the memory that `phys` points into. -/
structure PrimitiveHeap where
  primitiveHeap : UInt32
  mem : Memory

namespace PrimitiveHeap

def allocateWPointer (n phys : UInt32) (alligned : Bool) (s : PrimitiveHeap) :
    UInt32 × PrimitiveHeap :=
  let heap :=
    if alligned then
      if !isAligned s.primitiveHeap then (s.primitiveHeap &&& heapAlignment) + pageSize
      else s.primitiveHeap
    else s.primitiveHeap
  (heap, ⟨heap + n, if phys ≠ 0 then store32 s.mem phys.toNat heap.toNat else s.mem⟩)

def allocate (n : UInt32) (alligned : Bool) (s : PrimitiveHeap) : UInt32 × PrimitiveHeap :=
  s.allocateWPointer n 0 alligned

/-- The words are the numbers that the page tables are built with. -/
theorem allocateWPointer_toNat (n phys : UInt32) (alligned : Bool) (s : PrimitiveHeap) :
    Paging.allocateWPointer n.toNat s.primitiveHeap.toNat alligned =
      ⟨(s.allocateWPointer n phys alligned).1.toNat, (s.allocateWPointer n phys alligned).1.toNat,
        (s.allocateWPointer n phys alligned).2.primitiveHeap.toNat⟩ := by
  have hHeap : (if alligned ∧ s.primitiveHeap.toNat % 4096 ≠ 0 then
      (s.primitiveHeap.toNat - s.primitiveHeap.toNat % 4096 + 4096) % 4294967296
      else s.primitiveHeap.toNat) = (s.allocateWPointer n phys alligned).1.toNat := by
    rw [PrimitiveHeap.allocateWPointer]
    dsimp only
    cases alligned with
    | false => rfl
    | true =>
      by_cases hAligned : s.primitiveHeap.toNat % 4096 = 0
      · simp [(isAligned_iff _).mpr hAligned, hAligned]
      · have hNot := Bool.eq_false_iff.mpr (mt (isAligned_iff _).mp hAligned)
        have hDown : s.primitiveHeap.toNat - s.primitiveHeap.toNat % 4096 =
            s.primitiveHeap.toNat / 4096 * 4096 := by omega
        rw [if_pos ⟨rfl, hAligned⟩, if_pos rfl, hNot, Bool.not_false, if_pos rfl, hDown,
          UInt32.toNat_add, and_heapAlignment]
        rfl
  rw [Paging.allocateWPointer, hHeap]
  rfl

end PrimitiveHeap

/-! ## Sequences of requests -/

inductive HeapCall where
  | allocate (n : UInt32) (alligned : Bool)
  | allocateWPointer (n phys : UInt32) (alligned : Bool)

namespace HeapCall

def n : HeapCall → UInt32
  | allocate n _ | allocateWPointer n _ _ => n

def phys : HeapCall → UInt32
  | allocate _ _ => 0
  | allocateWPointer _ phys _ => phys

def alligned : HeapCall → Bool
  | allocate _ alligned | allocateWPointer _ _ alligned => alligned

def exec (s : PrimitiveHeap) : HeapCall → UInt32 × PrimitiveHeap
  | allocate n alligned => s.allocate n alligned
  | allocateWPointer n phys alligned => s.allocateWPointer n phys alligned

/-- Where a region begins if nothing wraps. -/
def start (c : HeapCall) (heap : Nat) : Nat :=
  if c.alligned then (heap + 4095) / 4096 * 4096 else heap

theorem exec_eq (c : HeapCall) (s : PrimitiveHeap) :
    c.exec s = s.allocateWPointer c.n c.phys c.alligned := by
  cases c <;> rfl

end HeapCall

/-- A call, what it returned, and the memory after it. -/
structure Served where
  call : HeapCall
  ptr : UInt32
  mem : Memory

def Served.stop (a : Served) : Nat := a.ptr.toNat + a.call.n.toNat

def serve : PrimitiveHeap → List HeapCall → List Served
  | _, [] => []
  | s, c :: cs => ⟨c, (c.exec s).1, (c.exec s).2.mem⟩ :: serve (c.exec s).2 cs

/-- The end of the last region if nothing wraps. -/
def total (heap : Nat) : List HeapCall → Nat
  | [] => heap
  | c :: cs => total (c.start heap + c.n.toNat) cs

/-- Each region begins behind the previous one, and less than a page behind it on a page boundary if
it was requested aligned. -/
def LaidOut (prevEnd : Nat) : List Served → Prop
  | [] => True
  | a :: as => prevEnd ≤ a.ptr.toNat ∧
      (a.call.alligned = true → a.ptr.toNat % 4096 = 0 ∧ a.ptr.toNat < prevEnd + 4096) ∧
      LaidOut a.stop as

variable {s : PrimitiveHeap} {c : HeapCall} {calls : List HeapCall} {a : Served}
  {as : List Served} {heap prevEnd : Nat}

theorem HeapCall.le_start (c : HeapCall) (heap : Nat) : heap ≤ c.start heap := by
  rw [HeapCall.start]
  split_ifs <;> omega

theorem le_total (heap : Nat) (calls : List HeapCall) : heap ≤ total heap calls := by
  induction calls generalizing heap with
  | nil => exact Nat.le_refl heap
  | cons c cs ih =>
    have hStart := c.le_start heap
    have hRest := ih (c.start heap + c.n.toNat)
    rw [total]
    omega

/-- One call: where the region begins, where the next one may begin, and what `phys` points to. -/
theorem exec_toNat (hNoWrap : c.start s.primitiveHeap.toNat + c.n.toNat < 4294967296) :
    (c.exec s).1.toNat = c.start s.primitiveHeap.toNat ∧
      (c.exec s).2.primitiveHeap.toNat = c.start s.primitiveHeap.toNat + c.n.toNat := by
  rw [c.exec_eq]
  have hWords := s.allocateWPointer_toNat c.n c.phys c.alligned
  have hNumbers : Paging.allocateWPointer c.n.toNat s.primitiveHeap.toNat c.alligned =
      ⟨c.start s.primitiveHeap.toNat, c.start s.primitiveHeap.toNat,
        c.start s.primitiveHeap.toNat + c.n.toNat⟩ := by
    unfold HeapCall.start at hNoWrap ⊢
    cases hAligned : c.alligned with
    | false =>
      rw [hAligned, if_neg Bool.false_ne_true] at hNoWrap
      simp [Paging.allocateWPointer, Nat.mod_eq_of_lt hNoWrap]
    | true =>
      rw [hAligned, if_pos rfl] at hNoWrap
      exact allocate_eq hNoWrap
  obtain ⟨hPtr, -, hEnd⟩ := Allocation.mk.inj (hWords.symm.trans hNumbers)
  exact ⟨hPtr, hEnd⟩

theorem exec_phys (hPhys : c.phys ≠ 0) :
    load32 (c.exec s).2.mem c.phys.toNat = (c.exec s).1.toNat := by
  rw [c.exec_eq, PrimitiveHeap.allocateWPointer]
  dsimp only
  rw [if_pos hPhys]
  exact load32_store32_of_lt _ (UInt32.toNat_lt _)

/-- Rounding up moves less than a page. -/
theorem HeapCall.start_aligned (hAligned : c.alligned = true) (heap : Nat) :
    c.start heap % 4096 = 0 ∧ c.start heap < heap + 4096 := by
  rw [HeapCall.start, if_pos hAligned]
  omega

theorem laidOut_serve (hNoWrap : total s.primitiveHeap.toNat calls < 4294967296) :
    LaidOut s.primitiveHeap.toNat (serve s calls) ∧
      ∀ a ∈ serve s calls, a.stop ≤ total s.primitiveHeap.toNat calls := by
  induction calls generalizing s with
  | nil => exact ⟨trivial, nofun⟩
  | cons c cs ih =>
    rw [total] at hNoWrap ⊢
    have hStop := le_total (c.start s.primitiveHeap.toNat + c.n.toNat) cs
    obtain ⟨hPtr, hEnd⟩ := exec_toNat (Nat.lt_of_le_of_lt hStop hNoWrap)
    rw [← hEnd] at hNoWrap hStop ⊢
    obtain ⟨hLater, hInside⟩ := ih hNoWrap
    have hThis : (⟨c, (c.exec s).1, (c.exec s).2.mem⟩ : Served).stop =
        (c.exec s).2.primitiveHeap.toNat := by rw [Served.stop, hPtr, hEnd]
    refine ⟨⟨?_, fun hAligned => ?_, ?_⟩, fun a ha => ?_⟩
    · dsimp only
      rw [hPtr]
      exact c.le_start _
    · dsimp only at hAligned ⊢
      rw [hPtr]
      exact HeapCall.start_aligned hAligned _
    · rw [hThis]
      exact hLater
    · rcases List.mem_cons.mp ha with rfl | hMem
      · rw [hThis]
        exact hStop
      · exact hInside a hMem

theorem LaidOut.le (h : LaidOut prevEnd as) (ha : a ∈ as) : prevEnd ≤ a.ptr.toNat := by
  induction as generalizing prevEnd with
  | nil => cases ha
  | cons b as ih =>
    obtain ⟨hLe, -, hLater⟩ := h
    rcases List.mem_cons.mp ha with rfl | hMem
    · exact hLe
    · have hBehind := ih hLater hMem
      rw [Served.stop] at hBehind
      omega

theorem LaidOut.pairwise (h : LaidOut prevEnd as) :
    as.Pairwise fun a b => a.stop ≤ b.ptr.toNat := by
  induction as generalizing prevEnd with
  | nil => exact .nil
  | cons a as ih =>
    obtain ⟨-, -, hLater⟩ := h
    exact List.pairwise_cons.mpr ⟨fun b hb => hLater.le hb, ih hLater⟩

theorem phys_serve (ha : a ∈ serve s calls) (hPhys : a.call.phys ≠ 0) :
    load32 a.mem a.call.phys.toNat = a.ptr.toNat := by
  induction calls generalizing s with
  | nil => cases ha
  | cons c cs ih =>
    rcases List.mem_cons.mp ha with rfl | hMem
    · exact exec_phys hPhys
    · exact ih hMem

/-- In any sequence of requests that does not wrap, the regions come one behind the other and are
apart, the aligned ones begin at the next page boundary, and `phys` points to the address that is
returned. -/
theorem serve_sound (s : PrimitiveHeap) (calls : List HeapCall)
    (hNoWrap : total s.primitiveHeap.toNat calls < 4294967296) :
    (serve s calls).Pairwise (fun a b => a.stop ≤ b.ptr.toNat ∧
        Apart a.ptr.toNat a.call.n.toNat b.ptr.toNat b.call.n.toNat) ∧
      LaidOut s.primitiveHeap.toNat (serve s calls) ∧
      ∀ a ∈ serve s calls, a.call.phys ≠ 0 →
        load32 a.mem a.call.phys.toNat = a.ptr.toNat := by
  obtain ⟨hLaidOut, hInside⟩ := laidOut_serve hNoWrap
  refine ⟨?_, hLaidOut, fun a ha hPhys => phys_serve ha hPhys⟩
  refine hLaidOut.pairwise.imp_of_mem fun _ hb hBehind => ⟨hBehind, ?_⟩
  exact apart_of_le hBehind (Nat.le_trans (hInside _ hb) (Nat.le_of_lt hNoWrap))

/-- A table, a few bytes behind it, and an aligned region after them. -/
theorem serve_sound_three :
    let calls := [.allocateWPointer 4096 0x9000 true, .allocate 10 false, .allocate 8192 true]
    (serve ⟨0x110004, fun _ => 0⟩ calls).map Served.ptr = [0x111000, 0x112000, 0x113000] ∧
      LaidOut 0x110004 (serve ⟨0x110004, fun _ => 0⟩ calls) :=
  ⟨by decide, (serve_sound ⟨0x110004, fun _ => 0⟩ _ (by decide)).2.1⟩

end Juos.Paging
