import Juos.Machine.Stack

/-!
# Exception entry and exit

The stubs `isr_0` .. `isr_31` as code for a small part of the processor: the registers, a byte
memory and the instructions that the stubs consist of. An exception pushes the flags, `cs` and
`eip`, and for some vectors an error code above them. Every stub is made by `isr_noerr`, which
pushes a zero in the place of the error code, and `isr_common_stub` removes two words before
`iret`. `transparent_iff` shows that entry and exit are as they should be for the vectors without
an error code, and for no other.
-/

namespace Juos.Interrupts

open Machine

/-! ## The processor -/

structure Cpu where
  eax : BitVec 32
  ecx : BitVec 32
  edx : BitVec 32
  ebx : BitVec 32
  esp : BitVec 32
  ebp : BitVec 32
  esi : BitVec 32
  edi : BitVec 32
  eip : BitVec 32
  eflags : BitVec 32
  cs : BitVec 16
  ds : BitVec 16
  es : BitVec 16
  fs : BitVec 16
  gs : BitVec 16
  mem : Memory

namespace Cpu

def push (x : BitVec 32) (c : Cpu) : Cpu :=
  { c with mem := pushWord c.mem c.esp x, esp := c.esp - 4 }

/-- Push words, the first one first. -/
def pushAll (xs : List (BitVec 32)) (c : Cpu) : Cpu :=
  { c with mem := pushWords c.mem c.esp xs, esp := c.esp - BitVec.ofNat 32 (4 * xs.length) }

def top (c : Cpu) : BitVec 32 := wordAt c.mem c.esp

/-- The word `i` words above the top of the stack. -/
def word (c : Cpu) (i : Nat) : BitVec 32 := wordAt c.mem (c.esp + BitVec.ofNat 32 (4 * i))

/-- The interrupt flag is bit 9. -/
def disableInterrupts (c : Cpu) : Cpu := { c with eflags := c.eflags &&& ~~~512 }

def enableInterrupts (c : Cpu) : Cpu := { c with eflags := c.eflags ||| 512 }

/-- What the processor does for an exception in the kernel: the gate has the selector 8 and turns
interrupts off. -/
def raise (errorCode : Option (BitVec 32)) (c : Cpu) : Cpu :=
  disableInterrupts
    { c.pushAll ([c.eflags, c.cs.setWidth 32, c.eip] ++ errorCode.toList) with cs := 8 }

end Cpu

inductive Segment where
  | ds
  | es
  | fs
  | gs
  deriving DecidableEq, Repr

inductive Instr where
  | cli
  | sti
  | pushImm (n : BitVec 32)
  | pusha
  | popa
  | movEaxDs
  | pushEax
  | popEax
  | movAx (n : BitVec 16)
  | movSegAx (s : Segment)
  | addEsp (n : BitVec 32)
  | iret
  deriving DecidableEq, Repr

def movSeg (s : Segment) (x : BitVec 16) (c : Cpu) : Cpu :=
  match s with
  | .ds => { c with ds := x }
  | .es => { c with es := x }
  | .fs => { c with fs := x }
  | .gs => { c with gs := x }

/-- One instruction, less the arithmetic flags that it changes: `iret` loads all flags. -/
def exec (c : Cpu) : Instr → Cpu
  | .cli => c.disableInterrupts
  | .sti => c.enableInterrupts
  | .pushImm n => c.push n
  | .pusha => c.pushAll [c.eax, c.ecx, c.edx, c.ebx, c.esp, c.ebp, c.esi, c.edi]
  | .popa =>
    { c with
      edi := c.word 0
      esi := c.word 1
      ebp := c.word 2
      ebx := c.word 4
      edx := c.word 5
      ecx := c.word 6
      eax := c.word 7
      esp := c.esp + 32 }
  | .movEaxDs => { c with eax := c.ds.setWidth 32 }
  | .pushEax => c.push c.eax
  | .popEax => { c with eax := c.top, esp := c.esp + 4 }
  | .movAx n => { c with eax := c.eax &&& 0xFFFF0000 ||| n.setWidth 32 }
  | .movSegAx s => movSeg s (c.eax.setWidth 16) c
  | .addEsp n => { c with esp := c.esp + n }
  | .iret =>
    { c with
      eip := c.word 0
      cs := (c.word 1).setWidth 16
      eflags := c.word 2
      esp := c.esp + 12 }

def run (code : List Instr) (c : Cpu) : Cpu := code.foldl exec c

/-! ## The stubs -/

/-- `isr_\num`, up to the jump. -/
def isrNoerr (num : Fin 32) : List Instr := [.cli, .pushImm 0, .pushImm (BitVec.ofNat 32 num)]

/-- `isr_common_stub` before the call of `isr_handler`. -/
def saveState : List Instr :=
  [.pusha, .movEaxDs, .pushEax, .movAx 0x10, .movSegAx .ds, .movSegAx .es, .movSegAx .fs,
    .movSegAx .gs]

/-- `isr_common_stub` after the call. -/
def restoreState : List Instr :=
  [.popEax, .movSegAx .ds, .movSegAx .es, .movSegAx .fs, .movSegAx .gs, .popa, .addEsp 8, .sti,
    .iret]

/-- `registers32_t`. -/
structure Registers32 where
  ds : BitVec 32
  edi : BitVec 32
  esi : BitVec 32
  ebp : BitVec 32
  esp : BitVec 32
  ebx : BitVec 32
  edx : BitVec 32
  ecx : BitVec 32
  eax : BitVec 32
  intNo : BitVec 32
  errCode : BitVec 32
  eip : BitVec 32
  cs : BitVec 32
  eflags : BitVec 32
  useresp : BitVec 32
  ss : BitVec 32
  deriving DecidableEq, Repr

/-- The state in which `isr_handler` starts. -/
def handlerEntry (returnAddress : BitVec 32) (num : Fin 32) (errorCode : Option (BitVec 32))
    (c : Cpu) : Cpu :=
  (run (isrNoerr num ++ saveState) (c.raise errorCode)).push returnAddress

/-- The argument of `isr_handler`, by value above the return address. -/
def argument (c : Cpu) : Registers32 :=
  ⟨c.word 1, c.word 2, c.word 3, c.word 4, c.word 5, c.word 6, c.word 7, c.word 8, c.word 9,
    c.word 10, c.word 11, c.word 12, c.word 13, c.word 14, c.word 15, c.word 16⟩

/-- The exception with a given handler, up to the code that goes on afterwards. -/
def isr (returnAddress : BitVec 32) (handler : Cpu → Cpu) (num : Fin 32)
    (errorCode : Option (BitVec 32)) (c : Cpu) : Cpu :=
  let c := handler (handlerEntry returnAddress num errorCode c)
  run restoreState { c with eip := c.top, esp := c.esp + 4 }

/-- The handler returns with the stack as it found it, from the return address to the words that
the processor pushed. -/
structure Returns (handler : Cpu → Cpu) (c : Cpu) : Prop where
  esp : (handler c).esp = c.esp
  frame : SameOn c.mem (handler c).mem c.esp.toNat 60

/-- `d` goes on where `c` was interrupted. -/
structure Resumes (d c : Cpu) : Prop where
  eip : d.eip = c.eip
  esp : d.esp = c.esp
  eax : d.eax = c.eax
  ecx : d.ecx = c.ecx
  edx : d.edx = c.edx
  ebx : d.ebx = c.ebx
  ebp : d.ebp = c.ebp
  esi : d.esi = c.esi
  edi : d.edi = c.edi

/-- Entry and exit of one exception are transparent. -/
structure Transparent (returnAddress : BitVec 32) (num : Fin 32)
    (errorCode : Option (BitVec 32)) (c : Cpu) : Prop where
  intNo : (argument (handlerEntry returnAddress num errorCode c)).intNo = BitVec.ofNat 32 num
  errCode : (argument (handlerEntry returnAddress num errorCode c)).errCode = errorCode.getD 0
  eip : (argument (handlerEntry returnAddress num errorCode c)).eip = c.eip
  cs : (argument (handlerEntry returnAddress num errorCode c)).cs = c.cs.setWidth 32
  eflags : (argument (handlerEntry returnAddress num errorCode c)).eflags = c.eflags
  resumed : ∀ handler, Returns handler (handlerEntry returnAddress num errorCode c) →
    Resumes (isr returnAddress handler num errorCode c) c

/-! ## The stack of a stub -/

namespace Cpu

variable {c : Cpu} {ws : List (BitVec 32)}

/-- The stack starts with the words `ws`. -/
def Holds (c : Cpu) (ws : List (BitVec 32)) : Prop := Stacked c.mem c.esp ws

theorem Holds.push (h : c.Holds ws) (hLength : ws.length < 1000) (x : BitVec 32) :
    (c.push x).Holds (x :: ws) := stacked_push h (by omega) x

theorem Holds.pushAll (h : c.Holds ws) (xs : List (BitVec 32))
    (hLength : ws.length + xs.length < 1000) : (c.pushAll xs).Holds (xs.reverse ++ ws) :=
  stacked_words h (by omega)

theorem Holds.word {i : Nat} (h : c.Holds ws) (hi : i < ws.length) :
    c.word i = ws.get ⟨i, hi⟩ := stacked_word h hi

end Cpu

variable {ws : List (BitVec 32)} {returnAddress : BitVec 32} {num : Fin 32} {c d : Cpu}
  {handler : Cpu → Cpu}

/-- The stack of the handler of an exception without an error code. -/
def frame (returnAddress : BitVec 32) (num : Fin 32) (c : Cpu) : List (BitVec 32) :=
  [returnAddress, c.ds.setWidth 32, c.edi, c.esi, c.ebp, (c.raise none).esp - 4 - 4, c.ebx, c.edx,
    c.ecx, c.eax, BitVec.ofNat 32 num, 0, c.eip, c.cs.setWidth 32, c.eflags]

theorem Cpu.Holds.congr (h : c.Holds ws) (hMem : d.mem = c.mem) (hEsp : d.esp = c.esp) :
    d.Holds ws := by
  rwa [Cpu.Holds, hMem, hEsp]

theorem holds_isrNoerr (num : Fin 32) (h : c.Holds ws) (hLength : ws.length < 100) :
    (run (isrNoerr num) c).Holds (BitVec.ofNat 32 num :: 0 :: ws) := by
  have hZero := h.push (by omega) 0
  have hNum := hZero.push (by rw [List.length_cons]; omega) (BitVec.ofNat 32 num)
  exact hNum.congr rfl rfl

theorem holds_saveState (h : c.Holds ws) (hLength : ws.length < 100) :
    (run saveState c).Holds ([c.ds.setWidth 32, c.edi, c.esi, c.ebp, c.esp, c.ebx, c.edx, c.ecx,
      c.eax] ++ ws) := by
  have hAll := h.pushAll [c.eax, c.ecx, c.edx, c.ebx, c.esp, c.ebp, c.esi, c.edi] (by simp; omega)
  have hDs := hAll.push (by simp; omega) (c.ds.setWidth 32)
  exact hDs.congr rfl rfl

/-- The registers that `isr_common_stub` saves, before it does. -/
theorem registers_isrNoerr (num : Fin 32) (c : Cpu) :
    (run (isrNoerr num) c).ds = c.ds ∧ (run (isrNoerr num) c).edi = c.edi ∧
      (run (isrNoerr num) c).esi = c.esi ∧ (run (isrNoerr num) c).ebp = c.ebp ∧
      (run (isrNoerr num) c).esp = c.esp - 4 - 4 ∧ (run (isrNoerr num) c).ebx = c.ebx ∧
      (run (isrNoerr num) c).edx = c.edx ∧ (run (isrNoerr num) c).ecx = c.ecx ∧
      (run (isrNoerr num) c).eax = c.eax := ⟨rfl, rfl, rfl, rfl, rfl, rfl, rfl, rfl, rfl⟩

theorem run_append (code code' : List Instr) (c : Cpu) :
    run (code ++ code') c = run code' (run code c) := List.foldl_append

theorem holds_handlerEntry :
    (handlerEntry returnAddress num none c).Holds (frame returnAddress num c) := by
  have hEmpty : c.Holds [] := stacked_nil c.mem c.esp
  have hRaise : (c.raise none).Holds [c.eip, c.cs.setWidth 32, c.eflags] :=
    (hEmpty.pushAll [c.eflags, c.cs.setWidth 32, c.eip] (by simp)).congr rfl rfl
  have hSaved := holds_saveState (holds_isrNoerr num hRaise (by simp)) (by simp)
  obtain ⟨hDs, hEdi, hEsi, hEbp, hEsp, hEbx, hEdx, hEcx, hEax⟩ :=
    registers_isrNoerr num (c.raise none)
  rw [hDs, hEdi, hEsi, hEbp, hEsp, hEbx, hEdx, hEcx, hEax] at hSaved
  have hHeld := hSaved.push (by simp) returnAddress
  rw [handlerEntry, run_append]
  exact hHeld

theorem esp_handlerEntry (errorCode : Option (BitVec 32)) :
    (handlerEntry returnAddress num errorCode c).esp =
      c.esp - BitVec.ofNat 32 (4 * (3 + errorCode.toList.length)) - 4 - 4 - 32 - 4 - 4 := by
  cases errorCode <;> rfl

/-- What the end of the stub does to the registers, from the state in which the handler returns. -/
theorem run_restoreState (c : Cpu) :
    ∃ d : Cpu, run restoreState { c with eip := c.top, esp := c.esp + 4 } = d ∧
      d.edi = c.word 2 ∧ d.esi = c.word 3 ∧ d.ebp = c.word 4 ∧ d.ebx = c.word 6 ∧
      d.edx = c.word 7 ∧ d.ecx = c.word 8 ∧ d.eax = c.word 9 ∧ d.eip = c.word 12 ∧
      d.esp = c.esp + 60 := by
  refine ⟨_, rfl, ?_⟩
  simp [run, restoreState, exec, movSeg, Cpu.word, Cpu.enableInterrupts, BitVec.add_assoc]

/-! ## Transparency -/

theorem resumes_of_holds (returnAddress : BitVec 32) (num : Fin 32)
    (h : c.Holds (frame returnAddress num d)) (hEsp : c.esp + 60 = d.esp) :
    Resumes (run restoreState { c with eip := c.top, esp := c.esp + 4 }) d := by
  obtain ⟨r, hRun, hEdi, hEsi, hEbp, hEbx, hEdx, hEcx, hEax, hEip, hSp⟩ := run_restoreState c
  have hWord : ∀ i (hi : i < 15), c.word i = (frame returnAddress num d).get ⟨i, hi⟩ :=
    fun i hi => h.word hi
  rw [hRun]
  exact ⟨hEip.trans (hWord 12 (by decide)), hSp.trans hEsp, hEax.trans (hWord 9 (by decide)),
    hEcx.trans (hWord 8 (by decide)), hEdx.trans (hWord 7 (by decide)),
    hEbx.trans (hWord 6 (by decide)), hEbp.trans (hWord 4 (by decide)),
    hEsi.trans (hWord 3 (by decide)), hEdi.trans (hWord 2 (by decide))⟩

theorem transparent_none : Transparent returnAddress num none c := by
  have hEntry : (handlerEntry returnAddress num none c).Holds (frame returnAddress num c) :=
    holds_handlerEntry
  have hWord : ∀ i (hi : i < 15), (handlerEntry returnAddress num none c).word i =
      (frame returnAddress num c).get ⟨i, hi⟩ := fun i hi => hEntry.word hi
  refine ⟨hWord 10 (by decide), hWord 11 (by decide), hWord 12 (by decide), hWord 13 (by decide),
    hWord 14 (by decide), fun handler hReturns => resumes_of_holds returnAddress num ?_ ?_⟩
  · have hSame := stacked_congr hEntry hReturns.frame
    rwa [Cpu.Holds, hReturns.esp]
  · rw [hReturns.esp, esp_handlerEntry]
    simp [BitVec.sub_eq_add_neg, BitVec.add_assoc]

/-- With an error code on the stack, the exit removes one word too few. -/
theorem not_transparent_some (code : BitVec 32) :
    ¬ Transparent returnAddress num (some code) c := by
  intro h
  have hResumes := (h.resumed id ⟨rfl, .refl _ _ _⟩).esp
  obtain ⟨r, hRun, -, -, -, -, -, -, -, -, hSp⟩ :=
    run_restoreState (handlerEntry returnAddress num (some code) c)
  rw [isr, id, hRun, hSp, esp_handlerEntry] at hResumes
  have hShort : c.esp - BitVec.ofNat 32 (4 * (3 + (some code).toList.length)) - 4 - 4 - 32 - 4 - 4 +
      60 = c.esp - 4 := by
    simp [BitVec.sub_eq_add_neg, BitVec.add_assoc]
  have hSub : (c.esp - 4).toNat = (4294967292 + c.esp.toNat) % 4294967296 := BitVec.toNat_sub ..
  rw [hShort] at hResumes
  rw [hResumes] at hSub
  have hLt := c.esp.isLt
  omega

/-- An exception is transparent if and only if the processor pushes no error code for it. -/
theorem transparent_iff (pushes : Fin 32 → Bool) (returnAddress code : BitVec 32) (num : Fin 32)
    (c : Cpu) :
    Transparent returnAddress num (if pushes num then some code else none) c ↔
      pushes num = false := by
  cases hPushes : pushes num with
  | true => exact ⟨fun h => absurd h (not_transparent_some code), fun h => nomatch h⟩
  | false => exact ⟨fun _ => rfl, fun _ => transparent_none⟩

/-- A page fault with the error code 2: the handler receives 0, and the code where it should find
`eip`. -/
theorem not_transparent_pageFault :
    let c : Cpu := ⟨1, 2, 3, 4, 0x8000, 6, 7, 8, 0x100000, 0x202, 8, 16, 16, 16, 16, fun _ => 0⟩
    (argument (handlerEntry 0x101000 14 (some 2) c)).errCode = 0 ∧
      (argument (handlerEntry 0x101000 14 (some 2) c)).eip = 2 ∧
      ¬ Transparent 0x101000 14 (some 2) c := by
  refine ⟨by decide +kernel, by decide +kernel, fun h => ?_⟩
  exact absurd h.errCode (by decide +kernel)

end Juos.Interrupts
