import Juos.Interrupts.Handlers
import Juos.Interrupts.Lines
import Juos.Interrupts.Startup
import Juos.Machine.Sectors
import Mathlib.Data.List.Induction

/-!
# The descriptor tables

The entries of the two tables as bytes, and what the processor reads in these bytes. `EditEntry`
spreads a base, a limit or an address over the fields of an entry; `descriptor_of_edits` shows that
the processor puts them together again, whatever sequence of edits the table comes from.

`line_dispatched` follows a hardware interrupt through all of it: the number that the controllers
were programmed to give, the gate that `Idt::_Init` put there, the stub at its address, the number
that the stub pushes, and the handler that is called.
-/

namespace Juos.Interrupts

open Machine

/-! ## Segments -/

/-- `Gdt::EntryStruct` -/
structure GdtEntry where
  limitLow : Nat
  baseLow : Nat
  baseMiddle : Nat
  access : Nat
  granularity : Nat
  baseHigh : Nat
  deriving DecidableEq, Repr

def GdtEntry.zero : GdtEntry := ⟨0, 0, 0, 0, 0, 0⟩

def GdtEntry.bytes (e : GdtEntry) : Buffer :=
  layOut [(2, e.limitLow), (2, e.baseLow), (1, e.baseMiddle), (1, e.access), (1, e.granularity),
    (1, e.baseHigh)]

/-- The arguments of `Gdt::EditEntry`. -/
structure GdtEdit where
  entry : Fin 5
  base : UInt32
  limit : UInt32
  access : UInt8
  gran : UInt8

def GdtEdit.entryStruct (e : GdtEdit) : GdtEntry where
  limitLow := e.limit.toNat &&& 0xFFFF
  baseLow := e.base.toNat &&& 0xFFFF
  baseMiddle := (e.base.toNat >>> 16) &&& 0xFF
  access := e.access.toNat
  granularity := ((e.limit.toNat >>> 16) &&& 0x0F) ||| (e.gran.toNat &&& 0xF0)
  baseHigh := (e.base.toNat >>> 24) &&& 0xFF

abbrev Gdt := Fin 5 → GdtEntry

/-- `Gdt::EditEntry` -/
def Gdt.editEntry (t : Gdt) (e : GdtEdit) : Gdt := Function.update t e.entry e.entryStruct

/-- The entries are packed: each takes eight bytes. -/
def Gdt.bytes (t : Gdt) : Buffer := fun i => (t (Fin.ofNat 5 (i / 8))).bytes (i % 8)

/-- `Gdt::_Init` -/
def gdtEdits : List GdtEdit :=
  [⟨0, 0, 0, 0, 0⟩, ⟨1, 0, 0xFFFFFFFF, 0x9A, 0xCF⟩, ⟨2, 0, 0xFFFFFFFF, 0x92, 0xCF⟩,
    ⟨3, 0, 0xFFFFFFFF, 0xFA, 0xCF⟩, ⟨4, 0, 0xFFFFFFFF, 0xF2, 0xCF⟩]

def gdtPtrSize : Nat := 5 * 8 - 1

/-- A descriptor as the processor reads it. -/
structure Descriptor where
  base : Nat
  limit : Nat
  access : Nat
  flags : Nat
  deriving DecidableEq, Repr

/-- The descriptor at an offset of the table. -/
def readDescriptor (b : Buffer) (o : Nat) : Descriptor where
  base := word b (o + 2) 2 + 65536 * word b (o + 4) 1 + 16777216 * word b (o + 7) 1
  limit := word b o 2 + 65536 * (word b (o + 6) 1 % 16)
  access := word b (o + 5) 1
  flags := word b (o + 6) 1 / 16

/-- The highest offset in the segment: with the granularity bit the limit counts pages. -/
def Descriptor.top (d : Descriptor) : Nat :=
  if d.flags.testBit 3 then d.limit * 4096 + 4095 else d.limit

/-- The linear address of an offset in a segment. The null selector has no segment. -/
def linear (b : Buffer) (size selector offset : Nat) : Option Nat :=
  let d := readDescriptor b (selector / 8 * 8)
  if selector / 8 ≠ 0 ∧ selector / 8 * 8 + 7 ≤ size ∧ d.access.testBit 7 ∧ offset ≤ d.top then
    some ((d.base + offset) % 4294967296)
  else none

theorem word_packed {t : Nat → Buffer} {a k n : Nat} (h : a + n ≤ 8) :
    word (fun i => t (i / 8) (i % 8)) (8 * k + a) n = word (t k) a n := by
  apply word_congr
  intro i hi
  have hDiv : (8 * k + a + i) / 8 = k := by omega
  have hMod : (8 * k + a + i) % 8 = a + i := by omega
  rw [hDiv, hMod]

/-- The two halves of the granularity byte. -/
theorem granularity_halves : ∀ (high : Fin 16) (gran : Fin 256),
    (high.val ||| (gran.val &&& 0xF0)) % 16 = high ∧
      (high.val ||| (gran.val &&& 0xF0)) / 16 = gran.val / 16 ∧
        (high.val ||| (gran.val &&& 0xF0)) < 256 := by
  decide +kernel

variable {t : Gdt} {e : GdtEdit} {k : Fin 5}

theorem word_gdt {a n : Nat} (h : a + n ≤ 8) :
    word t.bytes (8 * k + a) n = word (t k).bytes a n := by
  have hIndex : Fin.ofNat 5 k.val = k := Fin.ext (Nat.mod_eq_of_lt k.isLt)
  have hPacked := word_packed (t := fun i => (t (Fin.ofNat 5 i)).bytes) (k := k) h
  rw [hIndex] at hPacked
  exact hPacked

/-- What the processor reads of an entry. -/
theorem readDescriptor_entry : readDescriptor t.bytes (8 * k) =
    { base := (t k).baseLow % 65536 + 65536 * ((t k).baseMiddle % 256) +
        16777216 * ((t k).baseHigh % 256)
      limit := (t k).limitLow % 65536 + 65536 * ((t k).granularity % 256 % 16)
      access := (t k).access % 256
      flags := (t k).granularity % 256 / 16 } := by
  have hLimit : word t.bytes (8 * k) 2 = word (t k).bytes 0 2 := word_gdt (a := 0) (by decide)
  rw [readDescriptor, hLimit, word_gdt (by decide), word_gdt (by decide), word_gdt (by decide),
    word_gdt (by decide), word_gdt (by decide)]
  simp [GdtEntry.bytes, word_layOut_zero, word_layOut_of_le]

/-- The bits of a number that a mask of ones leaves. -/
theorem masks (n : Nat) : n &&& 0xFFFF = n % 65536 ∧ n &&& 0xFF = n % 256 ∧ n &&& 0x0F = n % 16 :=
  ⟨Nat.and_two_pow_sub_one_eq_mod n 16, Nat.and_two_pow_sub_one_eq_mod n 8,
    Nat.and_two_pow_sub_one_eq_mod n 4⟩

/-- What was written is what is read; of the limit there are 20 bits. -/
theorem readDescriptor_edit (h : t k = e.entryStruct) : readDescriptor t.bytes (8 * k) =
    ⟨e.base.toNat, e.limit.toNat % 1048576, e.access.toNat, e.gran.toNat / 16⟩ := by
  have hBase := e.base.toNat_lt
  have hAccess := e.access.toNat_lt
  have hHigh : e.limit.toNat / 65536 % 16 < 16 := Nat.mod_lt _ (by decide)
  obtain ⟨hLow, hFlags, hByte⟩ := granularity_halves ⟨_, hHigh⟩ ⟨_, e.gran.toNat_lt⟩
  dsimp only at hLow hFlags hByte
  rw [readDescriptor_entry, h]
  simp only [GdtEdit.entryStruct, (masks _).1, (masks _).2.1, (masks _).2.2,
    Nat.shiftRight_eq_div_pow, Nat.reducePow, Descriptor.mk.injEq]
  rw [Nat.mod_eq_of_lt hByte, hLow, hFlags]
  refine ⟨?_, ?_, ?_, rfl⟩ <;> omega

/-- The table after some edits; it starts as zeros. -/
def editedGdt (edits : List GdtEdit) : Gdt := edits.foldl Gdt.editEntry fun _ => .zero

/-- The last edit of an entry. -/
def lastEdit (edits : List GdtEdit) (k : Fin 5) : Option GdtEdit :=
  edits.reverse.find? fun e => e.entry = k

theorem editedGdt_apply (edits : List GdtEdit) (k : Fin 5) :
    editedGdt edits k = ((lastEdit edits k).map GdtEdit.entryStruct).getD .zero := by
  induction edits using List.reverseRecOn with
  | nil => rfl
  | append_singleton edits e ih =>
    rw [editedGdt, List.foldl_append, ← editedGdt, lastEdit, List.reverse_concat, List.find?_cons]
    dsimp only [List.foldl_cons, List.foldl_nil, Gdt.editEntry]
    by_cases hEntry : e.entry = k
    · rw [hEntry, Function.update_self]
      simp
    · rw [Function.update_of_ne (Ne.symm hEntry), ih, lastEdit]
      simp [hEntry]

/-- The highest offset of the segment that an edit describes. -/
def GdtEdit.top (e : GdtEdit) : Nat :=
  if (e.gran.toNat / 16).testBit 3 then e.limit.toNat % 1048576 * 4096 + 4095
  else e.limit.toNat % 1048576

theorem linear_eq {b : Buffer} {selector offset : Nat} (hIndex : selector / 8 = k) (hNull : k ≠ 0) :
    linear b gdtPtrSize selector offset =
      if (readDescriptor b (8 * k)).access.testBit 7 ∧ offset ≤ (readDescriptor b (8 * k)).top then
        some (((readDescriptor b (8 * k)).base + offset) % 4294967296)
      else none := by
  have hSize : (k : Nat) * 8 + 7 ≤ gdtPtrSize := by
    have := k.isLt
    change (k : Nat) * 8 + 7 ≤ 39
    omega
  have hne : (k : Nat) ≠ 0 := fun hZero => hNull (Fin.ext hZero)
  rw [linear, hIndex, Nat.mul_comm (k : Nat) 8]
  rw [Nat.mul_comm (k : Nat) 8] at hSize
  simp only [hne, hSize, ne_eq, not_false_eq_true, true_and]

/-- The selectors of `gdt_dump` and of the stubs cover the whole address space. -/
theorem linear_flat (hNull : k ≠ 0) {selector offset : Nat} (hIndex : selector / 8 = k)
    (hOffset : offset < 4294967296) :
    linear (editedGdt gdtEdits).bytes gdtPtrSize selector offset = some offset := by
  have hEach : ∀ k : Fin 5, k ≠ 0 → (lastEdit gdtEdits k).map (fun e =>
      (e.base, e.limit, e.access.toNat.testBit 7, e.gran)) = some (0, 0xFFFFFFFF, true, 0xCF) := by
    decide +kernel
  obtain ⟨e, hLast, hFields⟩ := Option.map_eq_some_iff.mp (hEach k hNull)
  simp only [Prod.mk.injEq] at hFields
  obtain ⟨hBase, hLimit, hPresent, hGran⟩ := hFields
  have hEdit : editedGdt gdtEdits k = e.entryStruct := by rw [editedGdt_apply, hLast]; rfl
  have hG : ((0xCF : UInt8).toNat / 16).testBit 3 = true := by decide
  have hTop : offset ≤ (0xFFFFFFFF : UInt32).toNat % 1048576 * 4096 + 4095 := by
    change offset ≤ 1048575 * 4096 + 4095
    omega
  rw [linear_eq hIndex hNull, readDescriptor_edit hEdit, hBase, hLimit, hGran, Descriptor.top,
    if_pos hG, if_pos ⟨hPresent, hTop⟩]
  exact congrArg some ((congrArg (· % 4294967296) (Nat.zero_add offset)).trans
    (Nat.mod_eq_of_lt hOffset))

/-- The functions that are entered in the table. -/
inductive Stub where
  | isr (num : Fin 32)
  | irq (num : Fin 16)
  deriving DecidableEq, Repr

/-- `Idt::EntryStruct` -/
structure IdtEntry where
  baseLow : Nat
  sel : Nat
  zero : Nat
  flags : Nat
  baseHigh : Nat
  deriving DecidableEq, Repr

def IdtEntry.bytes (e : IdtEntry) : Buffer :=
  layOut [(2, e.baseLow), (2, e.sel), (1, e.zero), (1, e.flags), (2, e.baseHigh)]

abbrev Idt := Fin 256 → IdtEntry

/-- `Idt::EditEntry`; the byte `zero` is not written. -/
def Idt.editEntry (t : Idt) (entry : Fin 256) (base : UInt32) (sel : UInt16) (flags : UInt8) :
    Idt :=
  Function.update t entry { t entry with
    baseLow := base.toNat &&& 0xFFFF
    baseHigh := (base.toNat >>> 16) &&& 0xFFFF
    sel := sel.toNat
    flags := flags.toNat }

def Idt.bytes (t : Idt) : Buffer := fun i => (t (Fin.ofNat 256 (i / 8))).bytes (i % 8)

/-- The edits of `_AddToInterruptTable` and of `_set_all_interrupts`, in this order. -/
def idtEdits : List (Fin 256 × Stub) :=
  ((List.finRange 16).map fun num : Fin 16 => (Fin.ofNat 256 (32 + num.val), .irq num)) ++
    (List.finRange 32).map fun num : Fin 32 => (Fin.ofNat 256 num.val, .isr num)

/-- The table after some edits; it starts as zeros. Every edit has the selector 8 and the flags of a
present interrupt gate. -/
def editedIdt (address : Stub → UInt32) (edits : List (Fin 256 × Stub)) : Idt :=
  edits.foldl (fun t e => t.editEntry e.1 (address e.2) 0x08 0x8E) fun _ => ⟨0, 0, 0, 0, 0⟩

def idtPtrSize : Nat := 8 * 256 - 1

/-- A gate as the processor reads it. -/
structure Gate where
  offset : Nat
  selector : Nat
  flags : Nat
  deriving DecidableEq, Repr

def readGate (b : Buffer) (o : Nat) : Gate where
  offset := word b o 2 + 65536 * word b (o + 6) 2
  selector := word b (o + 2) 2
  flags := word b (o + 5) 1

/-- Present, and turns interrupts off. -/
def Gate.IsInterruptGate (g : Gate) : Prop := g.flags.testBit 7 = true ∧ g.flags % 32 = 14

instance (g : Gate) : Decidable g.IsInterruptGate := by
  unfold Gate.IsInterruptGate
  infer_instance

def stubs : List Stub := (List.finRange 32).map .isr ++ (List.finRange 16).map .irq

/-- The function at a linear address. -/
def stubAt (address : Stub → UInt32) (a : Nat) : Option Stub :=
  stubs.find? fun stub => (address stub).toNat = a

/-- Where the processor goes for an interrupt with this number. -/
def dispatch (gdt idt : Buffer) (address : Stub → UInt32) (vector : Nat) : Option Stub :=
  let g := readGate idt (8 * vector)
  if 8 * vector + 7 ≤ idtPtrSize ∧ g.IsInterruptGate then
    (linear gdt gdtPtrSize g.selector g.offset).bind (stubAt address)
  else none

section Gates

variable {address : Stub → UInt32} {t : Idt} {k : Fin 256} {stub : Stub}

theorem editedIdt_apply (address : Stub → UInt32) (edits : List (Fin 256 × Stub)) (k : Fin 256) :
    editedIdt address edits k =
      match edits.reverse.find? fun e => e.1 = k with
      | none => ⟨0, 0, 0, 0, 0⟩
      | some e => ⟨(address e.2).toNat &&& 0xFFFF, 8, 0, 0x8E,
          ((address e.2).toNat >>> 16) &&& 0xFFFF⟩ := by
  induction edits using List.reverseRecOn generalizing k with
  | nil => rfl
  | append_singleton edits e ih =>
    rw [editedIdt, List.foldl_append, ← editedIdt, List.reverse_concat, List.find?_cons]
    dsimp only [List.foldl_cons, List.foldl_nil, Idt.editEntry]
    by_cases hEntry : e.1 = k
    · have hZero : (editedIdt address edits k).zero = 0 := by
        rw [ih]
        split <;> rfl
      rw [hEntry, Function.update_self]
      simp [hZero]
    · rw [Function.update_of_ne (Ne.symm hEntry), ih]
      simp [hEntry]

theorem word_idt {a n : Nat} (h : a + n ≤ 8) :
    word t.bytes (8 * k + a) n = word (t k).bytes a n := by
  have hIndex : Fin.ofNat 256 k.val = k := Fin.ext (Nat.mod_eq_of_lt k.isLt)
  have hPacked := word_packed (t := fun i => (t (Fin.ofNat 256 i)).bytes) (k := k) h
  rw [hIndex] at hPacked
  exact hPacked

/-- What the processor reads of a gate. -/
theorem readGate_entry : readGate t.bytes (8 * k) =
    { offset := (t k).baseLow % 65536 + 65536 * ((t k).baseHigh % 65536)
      selector := (t k).sel % 65536
      flags := (t k).flags % 256 } := by
  have hLow : word t.bytes (8 * k) 2 = word (t k).bytes 0 2 := word_idt (a := 0) (by decide)
  rw [readGate, hLow, word_idt (by decide), word_idt (by decide), word_idt (by decide)]
  simp [IdtEntry.bytes, word_layOut_zero, word_layOut_of_le]

/-- The stub whose gate is at a vector after `Idt::_Init`. -/
def stubOf (vector : Nat) : Option Stub :=
  if h : vector < 32 then some (.isr ⟨vector, h⟩)
  else if h : vector - 32 < 16 then some (.irq ⟨vector - 32, h⟩)
  else none

theorem find_idtEdits : ∀ k : Fin 256,
    (idtEdits.reverse.find? fun e => e.1 = k).map Prod.snd = stubOf k := by
  decide +kernel

theorem stubAt_address (hInjective : Function.Injective address) (stub : Stub) :
    stubAt address (address stub).toNat = some stub := by
  have hMem : stub ∈ stubs := by
    cases stub <;> simp [stubs]
  have hFound : stubAt address (address stub).toNat ≠ none := by
    intro hNone
    have hAbsent := List.find?_eq_none.mp hNone stub hMem
    simp at hAbsent
  obtain ⟨found, hFind⟩ := Option.ne_none_iff_exists'.mp hFound
  have hFirst : decide ((address found).toNat = (address stub).toNat) = true :=
    List.find?_some (p := fun s => decide ((address s).toNat = (address stub).toNat)) hFind
  rw [hFind, hInjective (UInt32.toNat_inj.mp (of_decide_eq_true hFirst))]

/-- The gate at a vector that the table has an entry for. -/
theorem readGate_edited (h : stubOf k = some stub) :
    readGate (editedIdt address idtEdits).bytes (8 * k) = ⟨(address stub).toNat, 8, 0x8E⟩ := by
  obtain ⟨e, hFind, hStub⟩ := Option.map_eq_some_iff.mp ((find_idtEdits k).trans h)
  have hAddress := (address stub).toNat_lt
  have hLow : (address stub).toNat &&& 0xFFFF = (address stub).toNat % 65536 := (masks _).1
  have hHigh : (address stub).toNat >>> 16 &&& 0xFFFF = (address stub).toNat / 65536 % 65536 := by
    rw [(masks _).1, Nat.shiftRight_eq_div_pow]
  rw [readGate_entry, editedIdt_apply, hFind]
  dsimp only
  rw [hStub, hLow, hHigh, Gate.mk.injEq]
  refine ⟨?_, rfl, rfl⟩
  omega

theorem readGate_empty (h : stubOf k = none) :
    readGate (editedIdt address idtEdits).bytes (8 * k) = ⟨0, 0, 0⟩ := by
  have hFind := Option.map_eq_none_iff.mp ((find_idtEdits k).trans h)
  have hEntry : editedIdt address idtEdits k = ⟨0, 0, 0, 0, 0⟩ := by
    rw [editedIdt_apply, hFind]
  rw [readGate_entry, hEntry]
  rfl

/-- Every interrupt goes to the stub of its number, and from 48 on to none. -/
theorem dispatch_eq (hInjective : Function.Injective address) (vector : Nat) :
    dispatch (editedGdt gdtEdits).bytes (editedIdt address idtEdits).bytes address vector =
      stubOf vector := by
  rw [dispatch]
  by_cases hVector : vector < 256
  · have hSize : 8 * vector + 7 ≤ idtPtrSize := by
      change 8 * vector + 7 ≤ 2047
      omega
    have hGate := @readGate_edited address ⟨vector, hVector⟩
    have hEmpty := @readGate_empty address ⟨vector, hVector⟩
    cases hStub : stubOf vector with
    | none =>
      rw [hEmpty hStub]
      exact if_neg fun h => absurd h.2.1 (by decide)
    | some stub =>
      have hLinear : linear (editedGdt gdtEdits).bytes gdtPtrSize 8 (address stub).toNat =
          some (address stub).toNat :=
        linear_flat (k := 1) (by decide) rfl (address stub).toNat_lt
      have hGates : (⟨(address stub).toNat, 8, 0x8E⟩ : Gate).IsInterruptGate :=
        ⟨show (0x8E : Nat).testBit 7 = true by decide, show 0x8E % 32 = 14 by decide⟩
      rw [hGate hStub, if_pos ⟨hSize, hGates⟩, hLinear]
      exact stubAt_address hInjective stub
  · have hSize : ¬ 8 * vector + 7 ≤ idtPtrSize := by
      change ¬ 8 * vector + 7 ≤ 2047
      omega
    rw [if_neg fun h => hSize h.1, stubOf, dif_neg (by omega), dif_neg (by omega)]

end Gates

/-! ## From the line to the handler -/

section Path

variable {address : Stub → UInt32} {code : List BootInstr} {num : Fin 16}

theorem programmed_kernelMain (c : Config)
    (h : code.filter (fun i => !i.isOther) = kernelMainCode) :
    Programmed (code.foldl Config.exec c) := by
  rw [← foldl_exec_filter, h]
  exact ⟨rfl, rfl⟩

/-- An interrupt of a line, once `kernel_main` has programmed the controllers and loaded the tables:
the processor goes to the stub of this line, with interrupts off, and `_go_to_interrupt` calls the
handler that `set_handler` put at 32 and the number of the line. -/
theorem line_dispatched (hInjective : Function.Injective address)
    (h : code.filter (fun i => !i.isOther) = kernelMainCode) (config : Config)
    (handlers : Handlers) (returnAddress : BitVec 32) (c : Cpu) (num : Fin 16) :
    dispatch (editedGdt gdtEdits).bytes (editedIdt address idtEdits).bytes address
        ((code.foldl Config.exec config).vector num) = some (.irq num) ∧
      goToInterrupt handlers (argument (lineEntry returnAddress num c)).intNo.toNat =
        handlers (32 + num) := by
  obtain ⟨hMaster, hSlave⟩ := programmed_kernelMain config h
  have hLt := num.isLt
  have hVector : (code.foldl Config.exec config).vector num = 32 + num := by
    rw [Config.vector, hMaster, hSlave]
    split
    · rfl
    · dsimp only
      omega
  have hNumber : (argument (lineEntry returnAddress num c)).intNo = mapped num :=
    Cpu.Holds.word (i := 10) holds_lineEntry (show 10 < 15 by decide)
  constructor
  · rw [hVector, dispatch_eq hInjective, stubOf, dif_neg (by omega), dif_pos (by omega)]
    exact congrArg (fun i => some (Stub.irq i)) (Fin.ext (Nat.add_sub_cancel_left 32 num.val))
  · have hMapped : (mapped num).toNat = 32 + num := by
      rw [mapped, BitVec.toNat_ofNat]
      omega
    rw [hNumber, hMapped, goToInterrupt, Nat.mod_eq_of_lt (by omega)]

/-- Stubs of sixteen bytes from 0x100000 on. -/
def sixteenBytes : Stub → UInt32
  | .isr num => UInt32.ofNat (0x100000 + 16 * num)
  | .irq num => UInt32.ofNat (0x100000 + 16 * (32 + num))

theorem line_dispatched_keyboard :
    dispatch (editedGdt gdtEdits).bytes (editedIdt sixteenBytes idtEdits).bytes sixteenBytes
        ((kernelMainCode.foldl Config.exec (firmware []).platform.config).vector 1) =
        some (.irq 1) ∧
      goToInterrupt (setHandler 33 .keyboardHandler (initializeHandlers fun _ => none)) (argument
        (lineEntry 0x101000 1 ⟨1, 2, 3, 4, 0x8000, 6, 7, 8, 0x100000, 0x202, 8, 16, 16, 16, 16,
          fun _ => 0⟩)).intNo.toNat = some .keyboardHandler := by
  have hInjective : Function.Injective sixteenBytes := by
    have hEach : ∀ s ∈ stubs, ∀ s' ∈ stubs, sixteenBytes s = sixteenBytes s' → s = s' := by
      decide +kernel
    have hAll : ∀ s, s ∈ stubs := by
      intro s
      cases s <;> simp [stubs]
    exact fun s s' hSame => hEach s (hAll s) s' (hAll s') hSame
  exact line_dispatched hInjective (by decide) _ _ _ _ 1

end Path

end Juos.Interrupts
