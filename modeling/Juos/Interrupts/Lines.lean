import Juos.Interrupts.Stubs

/-!
# Hardware interrupts, and interrupts of their handlers

The stubs `irq_0` .. `irq_15` and `irq_common_stub` on the processor of the exceptions. A handler
may turn interrupts on again, as that of the keyboard does, and be interrupted itself.
`irq_nested` shows that interrupts of any depth leave the code that was interrupted its registers,
its flags and its stack, as long as the code of the handlers does; `es`, `fs` and `gs` come back as
copies of `ds`.
-/

namespace Juos.Interrupts

open Machine

/-! ## The stubs -/

/-- The instructions that only `irq_common_stub` has, beside those of the exceptions. -/
inductive IrqInstr where
  | shared (i : Instr)
  | movAxDs
  | popEbx
  | movSegBx (s : Segment)
  deriving DecidableEq, Repr

def execIrq (c : Cpu) : IrqInstr → Cpu
  | .shared i => exec c i
  | .movAxDs => { c with eax := c.eax &&& 0xFFFF0000 ||| c.ds.setWidth 32 }
  | .popEbx => { c with ebx := c.top, esp := c.esp + 4 }
  | .movSegBx s => movSeg s (c.ebx.setWidth 16) c

def runIrq (code : List IrqInstr) (c : Cpu) : Cpu := code.foldl execIrq c

/-- The second argument of the macro: line `num` has the vector `32 + num`. -/
def mapped (num : Fin 16) : BitVec 32 := BitVec.ofNat 32 (32 + num)

/-- `irq_\num`, up to the jump. -/
def irqLine (num : Fin 16) : List IrqInstr :=
  [.shared (.pushImm 0), .shared (.pushImm (mapped num))]

/-- `irq_common_stub` before the call of `irq_handler`. -/
def saveLine : List IrqInstr :=
  [.shared .pusha, .movAxDs, .shared .pushEax, .shared (.movAx 0x10), .shared (.movSegAx .ds),
    .shared (.movSegAx .es), .shared (.movSegAx .fs), .shared (.movSegAx .gs)]

/-- `irq_common_stub` after the call. -/
def restoreLine : List IrqInstr :=
  [.popEbx, .movSegBx .ds, .movSegBx .es, .movSegBx .fs, .movSegBx .gs, .shared .popa,
    .shared (.addEsp 8), .shared .sti, .shared .iret]

/-- The state in which `irq_handler` starts. A hardware interrupt has no error code. -/
def lineEntry (returnAddress : BitVec 32) (num : Fin 16) (c : Cpu) : Cpu :=
  (runIrq (irqLine num ++ saveLine) (c.raise none)).push returnAddress

/-- What follows the return of `irq_handler`. -/
def lineExit (c : Cpu) : Cpu := runIrq restoreLine { c with eip := c.top, esp := c.esp + 4 }

/-- The interrupt with a given handler, up to the code that goes on afterwards. -/
def irq (returnAddress : BitVec 32) (handler : Cpu → Cpu) (num : Fin 16) (c : Cpu) : Cpu :=
  lineExit (handler (lineEntry returnAddress num c))

/-- A handler: pieces of its own code, and interrupts that come between them. -/
inductive Nested where
  | finish
  | work (code : Cpu → Cpu) (rest : Nested)
  | interrupt (num : Fin 16) (handler rest : Nested)

def Nested.run (returnAddress : BitVec 32) : Nested → Cpu → Cpu
  | finish, c => c
  | work code rest, c => rest.run returnAddress (code c)
  | interrupt num handler rest, c =>
    rest.run returnAddress (irq returnAddress (handler.run returnAddress) num c)

/-- `d` goes on where `c` was interrupted, with its flags. -/
structure Continues (d c : Cpu) : Prop extends Resumes d c where
  eflags : d.eflags = c.eflags
  cs : d.cs = c.cs
  ds : d.ds = c.ds
  es : d.es = c.ds
  fs : d.fs = c.ds
  gs : d.gs = c.ds

/-! ## One interrupt -/

variable {m : Memory} {sp base x returnAddress : BitVec 32} {xs : List (BitVec 32)} {n : Nat}
  {num : Fin 16} {c d e : Cpu}

/-- The distance of a stack pointer that goes down. -/
theorem toNat_below {k : Nat} (h : (base - sp).toNat + k < 4294967296) :
    (base - (sp - BitVec.ofNat 32 k)).toNat = (base - sp).toNat + k := by
  have hMove : base - (sp - BitVec.ofNat 32 k) = base - sp + BitVec.ofNat 32 k := by
    simp only [BitVec.sub_eq_add_neg, BitVec.neg_add, BitVec.neg_neg, BitVec.add_assoc]
  rw [hMove, BitVec.toNat_add, BitVec.toNat_ofNat]
  omega

/-- A push keeps what is above the stack pointer. -/
theorem sameOn_pushWord (h : (base - sp).toNat + n + 4 ≤ 4294967296) :
    SameOn m (pushWord m sp x) base.toNat n := by
  have hSub : (base - sp).toNat = (4294967296 - sp.toNat + base.toNat) % 4294967296 :=
    BitVec.toNat_sub ..
  have hPush : (sp - 4).toNat = (4294967292 + sp.toNat) % 4294967296 := BitVec.toNat_sub ..
  apply sameOn_store32
  intro i hi j hj
  have := sp.isLt
  have := base.isLt
  omega

theorem sameOn_pushWords (h : (base - sp).toNat + n + 4 * xs.length ≤ 4294967296) :
    SameOn m (pushWords m sp xs) base.toNat n := by
  induction xs generalizing m sp with
  | nil => exact .refl _ _ _
  | cons x xs ih =>
    rw [List.length_cons] at h
    by_cases hLast : xs.length = 0 ∧ n = 0
    · intro i hi
      omega
    · have hBelow : (base - (sp - 4)).toNat = (base - sp).toNat + 4 :=
        toNat_below (k := 4) (by omega)
      exact (sameOn_pushWord (by omega)).trans (ih (by omega))

/-- From `c` to `d` the stack went down by `k` bytes, and the `n` bytes from `base` are the same. -/
structure Pushed (base : BitVec 32) (n k : Nat) (c d : Cpu) : Prop where
  same : SameOn c.mem d.mem base.toNat n
  esp : (base - d.esp).toNat = (base - c.esp).toNat + k

theorem Pushed.trans {k l : Nat} (h : Pushed base n k c d) (h' : Pushed base n l d e) :
    Pushed base n (k + l) c e :=
  ⟨h.same.trans h'.same, by rw [h'.esp, h.esp, Nat.add_assoc]⟩

theorem pushed_pushAll (xs : List (BitVec 32))
    (h : (base - c.esp).toNat + n + 4 * xs.length < 4294967296) :
    Pushed base n (4 * xs.length) c (c.pushAll xs) :=
  ⟨sameOn_pushWords (Nat.le_of_lt h), toNat_below (by omega)⟩

theorem pushed_push (x : BitVec 32) (h : (base - c.esp).toNat + n + 4 < 4294967296) :
    Pushed base n 4 c (c.push x) :=
  ⟨sameOn_pushWord (Nat.le_of_lt h), toNat_below (k := 4) (by omega)⟩

/-- Only the memory and the stack pointer matter. -/
theorem Pushed.congr {k : Nat} (h : Pushed base n k c d) (hMem : e.mem = d.mem)
    (hEsp : e.esp = d.esp) : Pushed base n k c e :=
  ⟨hMem ▸ h.same, hEsp ▸ h.esp⟩

theorem runIrq_append (code code' : List IrqInstr) (c : Cpu) :
    runIrq (code ++ code') c = runIrq code' (runIrq code c) := List.foldl_append

theorem pushed_irqLine (num : Fin 16) (h : (base - c.esp).toNat + n + 8 < 4294967296) :
    Pushed base n 8 c (runIrq (irqLine num) c) := by
  have hZero : Pushed base n 4 c (c.push 0) := pushed_push 0 (by omega)
  have hNum := hZero.trans (pushed_push (mapped num) (by rw [hZero.esp]; omega))
  exact hNum.congr rfl rfl

theorem pushed_saveLine (h : (base - c.esp).toNat + n + 36 < 4294967296) :
    Pushed base n 36 c (runIrq saveLine c) := by
  have hRoom : (base - c.esp).toNat + n + 32 < 4294967296 := by omega
  have hAll : Pushed base n 32 c _ :=
    pushed_pushAll [c.eax, c.ecx, c.edx, c.ebx, c.esp, c.ebp, c.esi, c.edi] hRoom
  have hDs := hAll.trans (pushed_push (c.eax &&& 0xFFFF0000 ||| c.ds.setWidth 32)
    (by rw [hAll.esp]; omega))
  exact hDs.congr rfl rfl

theorem pushed_lineEntry (h : (base - c.esp).toNat + n + 60 < 4294967296) :
    Pushed base n 60 c (lineEntry returnAddress num c) := by
  have hRaise : Pushed base n 12 c (c.raise none) :=
    (pushed_pushAll [c.eflags, c.cs.setWidth 32, c.eip]
      (by simp only [List.length_cons, List.length_nil]; omega)).congr rfl rfl
  have hLine := hRaise.trans (pushed_irqLine num (by rw [hRaise.esp]; omega))
  have hSave := hLine.trans (pushed_saveLine (by rw [hLine.esp]; omega))
  rw [← runIrq_append] at hSave
  exact hSave.trans (pushed_push returnAddress (by rw [hSave.esp]; omega))

/-- The stack of the handler. -/
def lineFrame (returnAddress : BitVec 32) (num : Fin 16) (c : Cpu) : List (BitVec 32) :=
  [returnAddress, c.eax &&& 0xFFFF0000 ||| c.ds.setWidth 32, c.edi, c.esi, c.ebp,
    (c.raise none).esp - 4 - 4, c.ebx, c.edx, c.ecx, c.eax, mapped num, 0, c.eip,
    c.cs.setWidth 32, c.eflags]

theorem holds_irqLine (num : Fin 16) {ws : List (BitVec 32)} (h : c.Holds ws)
    (hLength : ws.length < 100) : (runIrq (irqLine num) c).Holds (mapped num :: 0 :: ws) := by
  have hZero := h.push (by omega) 0
  have hNum := hZero.push (by rw [List.length_cons]; omega) (mapped num)
  exact hNum.congr rfl rfl

theorem holds_saveLine {ws : List (BitVec 32)} (h : c.Holds ws) (hLength : ws.length < 100) :
    (runIrq saveLine c).Holds ([c.eax &&& 0xFFFF0000 ||| c.ds.setWidth 32, c.edi, c.esi, c.ebp,
      c.esp, c.ebx, c.edx, c.ecx, c.eax] ++ ws) := by
  have hAll := h.pushAll [c.eax, c.ecx, c.edx, c.ebx, c.esp, c.ebp, c.esi, c.edi] (by simp; omega)
  have hDs := hAll.push (by simp; omega) (c.eax &&& 0xFFFF0000 ||| c.ds.setWidth 32)
  exact hDs.congr rfl rfl

theorem holds_lineEntry :
    (lineEntry returnAddress num c).Holds (lineFrame returnAddress num c) := by
  have hEmpty : c.Holds [] := stacked_nil c.mem c.esp
  have hRaise : (c.raise none).Holds [c.eip, c.cs.setWidth 32, c.eflags] :=
    (hEmpty.pushAll [c.eflags, c.cs.setWidth 32, c.eip] (by simp)).congr rfl rfl
  have hSaved := holds_saveLine (holds_irqLine num hRaise (by simp)) (by simp)
  rw [lineEntry, runIrq_append]
  exact hSaved.push (by simp) returnAddress

theorem esp_lineEntry : (lineEntry returnAddress num c).esp + 60 = c.esp := by
  have hEsp : (lineEntry returnAddress num c).esp =
      c.esp - BitVec.ofNat 32 12 - 4 - 4 - BitVec.ofNat 32 32 - 4 - 4 := rfl
  rw [hEsp]
  simp [BitVec.sub_eq_add_neg, BitVec.add_assoc]

/-- What the end of the stub does, from the state in which the handler returns. -/
theorem lineExit_eq (c : Cpu) : ∃ d, lineExit c = d ∧
    d.edi = c.word 2 ∧ d.esi = c.word 3 ∧ d.ebp = c.word 4 ∧ d.ebx = c.word 6 ∧
    d.edx = c.word 7 ∧ d.ecx = c.word 8 ∧ d.eax = c.word 9 ∧ d.eip = c.word 12 ∧
    d.cs = (c.word 13).setWidth 16 ∧ d.eflags = c.word 14 ∧ d.esp = c.esp + 60 ∧
    d.mem = c.mem ∧ d.ds = (c.word 1).setWidth 16 ∧ d.es = (c.word 1).setWidth 16 ∧
    d.fs = (c.word 1).setWidth 16 ∧ d.gs = (c.word 1).setWidth 16 := by
  refine ⟨_, rfl, ?_⟩
  simp [lineExit, runIrq, restoreLine, execIrq, exec, movSeg, Cpu.word, Cpu.top,
    Cpu.enableInterrupts, BitVec.add_assoc]

/-- The word that is on the stack for `ds` has `ds` in its lower half. -/
theorem setWidth_saved (eax : BitVec 32) (ds : BitVec 16) :
    (eax &&& 0xFFFF0000 ||| ds.setWidth 32).setWidth 16 = ds := by
  ext i hi
  simp [BitVec.getElem_eq_testBit_toNat]

/-- An interrupt whose handler keeps its stack continues what it interrupted. -/
theorem continues_of_returns {f : Cpu} (hEsp : f.esp = (lineEntry returnAddress num c).esp)
    (hSame : SameOn (lineEntry returnAddress num c).mem f.mem
      (lineEntry returnAddress num c).esp.toNat 60) : Continues (lineExit f) c := by
  have hEntry : (lineEntry returnAddress num c).Holds (lineFrame returnAddress num c) :=
    holds_lineEntry
  have hHolds : f.Holds (lineFrame returnAddress num c) := by
    have hStacked := stacked_congr hEntry hSame
    rwa [Cpu.Holds, hEsp]
  have hWord : ∀ i (hi : i < 15), f.word i = (lineFrame returnAddress num c).get ⟨i, hi⟩ :=
    fun i hi => hHolds.word hi
  obtain ⟨d, hExit, hEdi, hEsi, hEbp, hEbx, hEdx, hEcx, hEax, hEip, hCs, hFlags, hSp, -, hDs, hEs,
    hFs, hGs⟩ := lineExit_eq f
  have hSaved : (f.word 1).setWidth 16 = c.ds := by
    rw [hWord 1 (by decide)]
    exact setWidth_saved c.eax c.ds
  have hCode : (f.word 13).setWidth 16 = c.cs := by
    rw [hWord 13 (by decide)]
    exact BitVec.setWidth_setWidth_of_le c.cs (by decide)
  rw [hExit]
  have hStack : d.esp = c.esp := by rw [hSp, hEsp, esp_lineEntry]
  exact ⟨⟨hEip.trans (hWord 12 (by decide)), hStack, hEax.trans (hWord 9 (by decide)),
    hEcx.trans (hWord 8 (by decide)), hEdx.trans (hWord 7 (by decide)),
    hEbx.trans (hWord 6 (by decide)), hEbp.trans (hWord 4 (by decide)),
    hEsi.trans (hWord 3 (by decide)), hEdi.trans (hWord 2 (by decide))⟩,
    hFlags.trans (hWord 14 (by decide)), hCs.trans hCode, hDs.trans hSaved, hEs.trans hSaved,
    hFs.trans hSaved, hGs.trans hSaved⟩

/-! ## Interrupts in interrupts -/

/-- The code of the handlers leaves the `n` bytes from `base` alone, and the stack pointer is at
`base` again in the end. An interrupt finds room for what it pushes; its handler keeps that, and
all that is above. -/
def Nested.Behaves (returnAddress base : BitVec 32) (n : Nat) : Nested → Cpu → Prop
  | finish, c => c.esp = base
  | work code rest, c =>
    SameOn c.mem (code c).mem base.toNat n ∧ rest.Behaves returnAddress base n (code c)
  | interrupt num handler rest, c =>
    (base - c.esp).toNat + n + 60 < 4294967296 ∧
      handler.Behaves returnAddress (lineEntry returnAddress num c).esp
        (60 + ((base - c.esp).toNat + n)) (lineEntry returnAddress num c) ∧
      rest.Behaves returnAddress base n (irq returnAddress (handler.run returnAddress) num c)

/-- Every interrupt of the tree gives its handler its own number, and continues what it
interrupted. -/
def Nested.Transparent (returnAddress : BitVec 32) : Nested → Cpu → Prop
  | finish, _ => True
  | work code rest, c => rest.Transparent returnAddress (code c)
  | interrupt num handler rest, c =>
    (argument (lineEntry returnAddress num c)).intNo = mapped num ∧
      Continues (irq returnAddress (handler.run returnAddress) num c) c ∧
      handler.Transparent returnAddress (lineEntry returnAddress num c) ∧
      rest.Transparent returnAddress (irq returnAddress (handler.run returnAddress) num c)

/-- What is the same from the stack pointer upwards is the same further up. -/
theorem sameOn_above {m' : Memory} {k : Nat} (h : SameOn m m' sp.toNat (k + n))
    (hBase : (base - sp).toNat = k) : SameOn m m' base.toNat n := by
  have hSub : (base - sp).toNat = (4294967296 - sp.toNat + base.toNat) % 4294967296 :=
    BitVec.toNat_sub ..
  intro i hi
  have hMod : (base.toNat + i) % 4294967296 = (sp.toNat + (k + i)) % 4294967296 := by
    have := sp.isLt
    have := base.isLt
    omega
  have hByte := h (k + i) (by omega)
  simp only [load8, hMod] at hByte ⊢
  exact hByte

/-- An interrupt whose handler keeps what is above its stack keeps it, too. -/
theorem sameOn_irq {f : Cpu} (hRoom : (base - c.esp).toNat + n + 60 < 4294967296)
    (hSame : SameOn (lineEntry returnAddress num c).mem f.mem
      (lineEntry returnAddress num c).esp.toNat (60 + ((base - c.esp).toNat + n))) :
    SameOn c.mem (lineExit f).mem base.toNat n := by
  have hPushed : Pushed base n 60 c (lineEntry returnAddress num c) := pushed_lineEntry hRoom
  obtain ⟨d, hExit, -, -, -, -, -, -, -, -, -, -, -, hMem, -⟩ := lineExit_eq f
  rw [hExit, hMem]
  refine hPushed.same.trans (sameOn_above ?_ (hPushed.esp.trans (Nat.add_comm _ _)))
  rwa [Nat.add_assoc]

theorem Nested.keeps {h : Nested} (hBehaves : h.Behaves returnAddress base n c) :
    (h.run returnAddress c).esp = base ∧
      SameOn c.mem (h.run returnAddress c).mem base.toNat n := by
  induction h generalizing base n c with
  | finish => exact ⟨hBehaves, .refl _ _ _⟩
  | work code rest ih =>
    obtain ⟨hCode, hRest⟩ := hBehaves
    obtain ⟨hEsp, hSame⟩ := ih hRest
    exact ⟨hEsp, hCode.trans hSame⟩
  | interrupt num handler rest ihHandler ihRest =>
    obtain ⟨hRoom, hHandler, hRest⟩ := hBehaves
    obtain ⟨-, hSame⟩ := ihHandler hHandler
    obtain ⟨hEsp, hAfter⟩ := ihRest hRest
    exact ⟨hEsp, (sameOn_irq hRoom hSame).trans hAfter⟩

/-- Interrupts of any depth are transparent, all of them. -/
theorem irq_nested {h : Nested} (hBehaves : h.Behaves returnAddress base n c) :
    h.Transparent returnAddress c := by
  induction h generalizing base n c with
  | finish => trivial
  | work code rest ih => exact ih hBehaves.2
  | interrupt num handler rest ihHandler ihRest =>
    obtain ⟨hRoom, hHandler, hRest⟩ := hBehaves
    obtain ⟨hEsp, hSame⟩ := Nested.keeps hHandler
    have hNumber : (argument (lineEntry returnAddress num c)).intNo = mapped num :=
      Cpu.Holds.word (i := 10) holds_lineEntry (show 10 < 15 by decide)
    exact ⟨hNumber, continues_of_returns hEsp (hSame.sub (by omega)), ihHandler hHandler,
      ihRest hRest⟩

/-- The keyboard's handler turns interrupts on, and the timer interrupts it. -/
def keyboardLine : Nested :=
  .interrupt 1 (.work Cpu.enableInterrupts (.interrupt 0 .finish .finish)) .finish

theorem irq_nested_keyboard : keyboardLine.Transparent 0x101000
    ⟨1, 2, 3, 4, 0x8000, 6, 7, 8, 0x100000, 0x202, 8, 16, 16, 16, 16, fun _ => 0⟩ := by
  have hBehaves : keyboardLine.Behaves 0x101000 0x8000 16
      ⟨1, 2, 3, 4, 0x8000, 6, 7, 8, 0x100000, 0x202, 8, 16, 16, 16, 16, fun _ => 0⟩ :=
    ⟨by decide, ⟨.refl _ _ _, by decide, rfl, rfl⟩, rfl⟩
  exact irq_nested hBehaves

end Juos.Interrupts
