import Mathlib.Data.List.Basic
import Mathlib.Logic.Function.Basic

/-!
# Interrupts during startup

The instructions of `kernel_main` as far as the interrupt flag, the two interrupt controllers and
the descriptor table see them, and devices that raise their lines whenever they like. A request is
kept until it is acknowledged, or the controller is told to start its initialization. An interrupt
that finds no loaded descriptor table, or an empty entry, is the end of the machine.

`Pic::Initialize` lets the interrupts of the timer and the keyboard through before the entries are
filled and the table is loaded. `startup_iff` says which instants of the startup are exposed by
that, and on which requests the machine does not come through.
-/

namespace Juos.Interrupts

/-! ## The instructions -/

inductive BootInstr where
  /-- `inb`, with the byte kept for an `outb` to the same port -/
  | inb (port : Nat)
  | outb (port value : Nat)
  /-- `outb` of the byte that was read there -/
  | outbSaved (port : Nat)
  | sti
  | cli
  | editEntry (entry : Nat)
  | lidt
  /-- an instruction that changes none of this -/
  | other
  deriving DecidableEq, Repr

def BootInstr.isOther : BootInstr → Bool
  | other => true
  | _ => false

def picRemap (offset1 offset2 : Nat) : List BootInstr :=
  [.inb 0x21, .inb 0xa1, .outb 0x20 0x11, .outb 0xa0 0x11, .outb 0x21 offset1, .outb 0xa1 offset2,
    .outb 0x21 4, .outb 0xa1 2, .outb 0x21 1, .outb 0xa1 1, .outbSaved 0x21, .outbSaved 0xa1]

def enableDevices (masterDev slaveDev : Nat) : List BootInstr :=
  [.outb 0x21 masterDev, .outb 0xa1 slaveDev, .sti]

def addToInterruptTable : List BootInstr := (List.range' 32 16).map .editEntry

def picInitialize (base : Nat) : List BootInstr :=
  picRemap base (base + 8) ++ (enableDevices 0xfc 0xff ++ addToInterruptTable)

def setAllInterrupts : List BootInstr := (List.range 32).map .editEntry

/-- `Idt::_Init`, with `idt_dump` at its end. -/
def idtInit : List BootInstr := picInitialize 0x20 ++ (setAllInterrupts ++ [.lidt])

def processingInitialize : List BootInstr := [.cli, .sti]

/-- `kernel_main`; the calls that are not listed have no such instruction. -/
def kernelMainCode : List BootInstr := idtInit ++ processingInitialize

/-! ## The machine -/

/-- An interrupt controller; `icw` is the initialization word that is expected next, if any. -/
structure Pic where
  offset : Nat
  imr : Nat
  icw : Nat
  deriving DecidableEq, Repr

/-- A write to the command port: the first initialization word, which clears the mask, or the end
of an interrupt. -/
def Pic.command (value : Nat) (p : Pic) : Pic :=
  if value.testBit 4 then { p with imr := 0, icw := 2 } else p

/-- A write to the data port: the second to fourth initialization word, or the mask. -/
def Pic.data (value : Nat) (p : Pic) : Pic :=
  if p.icw = 2 then { p with offset := value, icw := 3 }
  else if p.icw = 3 then { p with icw := 4 }
  else if p.icw = 4 then { p with icw := 0 }
  else { p with imr := value }

/-- The interrupt flag, the table and the programming of the controllers. -/
structure Config where
  interruptFlag : Bool
  idtLoaded : Bool
  /-- the entries of `idt_entries` that are filled -/
  entries : List Nat
  master : Pic
  slave : Pic
  /-- the bytes that were read from the ports -/
  saved : Nat → Nat

namespace Config

def outb (port value : Nat) (c : Config) : Config :=
  if port = 0x20 then { c with master := c.master.command value }
  else if port = 0x21 then { c with master := c.master.data value }
  else if port = 0xa0 then { c with slave := c.slave.command value }
  else if port = 0xa1 then { c with slave := c.slave.data value }
  else c

/-- The masks are all that is read. -/
def inb (port : Nat) (c : Config) : Config :=
  if port = 0x21 then { c with saved := Function.update c.saved port c.master.imr }
  else if port = 0xa1 then { c with saved := Function.update c.saved port c.slave.imr }
  else c

def exec (c : Config) : BootInstr → Config
  | .inb port => c.inb port
  | .outb port value => c.outb port value
  | .outbSaved port => c.outb port (c.saved port)
  | .sti => { c with interruptFlag := true }
  | .cli => { c with interruptFlag := false }
  | .editEntry entry => { c with entries := entry :: c.entries }
  | .lidt => { c with idtLoaded := true }
  | .other => c

/-- The lines from 8 on are those of the slave, which is at line 2 of the master. -/
def masked (c : Config) (irq : Nat) : Bool :=
  if irq < 8 then c.master.imr.testBit irq
  else c.master.imr.testBit 2 || c.slave.imr.testBit (irq - 8)

def vector (c : Config) (irq : Nat) : Nat :=
  if irq < 8 then c.master.offset + irq else c.slave.offset + (irq - 8)

/-- The table is loaded, and has an entry for every exception and every line that is let through. -/
structure Ready (c : Config) : Prop where
  loaded : c.idtLoaded = true
  exceptions : ∀ v < 32, v ∈ c.entries
  irqs : ∀ irq < 16, c.masked irq = false → c.vector irq ∈ c.entries

end Config

structure Platform where
  config : Config
  /-- set by `sti`, which keeps interrupts off for one more instruction -/
  shadow : Bool
  requests : Nat → Bool

/-- The lines in the order of their priority. -/
def priority : List Nat := [0, 1, 8, 9, 10, 11, 12, 13, 14, 15, 3, 4, 5, 6, 7]

/-- The lines whose requests the instruction drops: those of a controller that is initialized. -/
def BootInstr.drops : BootInstr → Nat → Bool
  | outb port value, irq =>
    value.testBit 4 && (port == 0x20 && decide (irq < 8) || port == 0xa0 && decide (8 ≤ irq))
  | _, _ => false

namespace Platform

def raise (lines : Nat → Bool) (p : Platform) : Platform :=
  { p with requests := fun irq => p.requests irq || lines irq }

/-- The line whose interrupt the processor takes before the next instruction. -/
def asserted (p : Platform) : Option Nat :=
  if p.config.interruptFlag && !p.shadow then
    priority.find? fun irq => p.requests irq && !p.config.masked irq
  else none

/-- The handler acknowledges the interrupt and returns with interrupts on. -/
def deliver (irq : Nat) (p : Platform) : Option Platform :=
  if p.config.idtLoaded = true ∧ p.config.vector irq ∈ p.config.entries then
    some ⟨{ p.config with interruptFlag := true }, false, Function.update p.requests irq false⟩
  else none

def exec (i : BootInstr) (p : Platform) : Platform where
  config := p.config.exec i
  shadow := i = .sti ∧ p.config.interruptFlag = false
  requests irq := p.requests irq && !i.drops irq

end Platform

/-- The code that is left; when there is none, the processor halts until the next interrupt. -/
structure Startup where
  platform : Platform
  code : List BootInstr
  clock : Nat

namespace Startup

/-- One instant: the lines that are raised, and then an interrupt or an instruction. -/
def step (arrivals : Nat → Nat → Bool) (b : Startup) : Option Startup :=
  let p := b.platform.raise (arrivals b.clock)
  match p.asserted with
  | some irq => (p.deliver irq).map fun p => ⟨p, b.code, b.clock + 1⟩
  | none => match b.code with
    | [] => some ⟨{ p with shadow := false }, [], b.clock + 1⟩
    | i :: code => some ⟨p.exec i, code, b.clock + 1⟩

def run (arrivals : Nat → Nat → Bool) : Nat → Startup → Option Startup
  | 0, b => some b
  | n + 1, b => (b.step arrivals).bind (run arrivals n)

/-- The entry of the kernel: interrupts are off and there is no table yet. Nothing is known of the
controllers. -/
def entry (master slave : Pic) (requests : Nat → Bool) (code : List BootInstr) : Startup where
  platform := ⟨⟨false, false, [], master, slave, fun _ => 0⟩, false, requests⟩
  code := code
  clock := 0

end Startup

/-! ## One instant -/

section Instants

variable {arrivals : Nat → Nat → Bool} {b : Startup} {c : Config} {p : Platform} {i : BootInstr}
  {code : List BootInstr}

/-- The controllers as `Pic::Initialize` leaves them: lines 0 and 1 are let through. -/
def Programmed (c : Config) : Prop := c.master = ⟨0x20, 0xfc, 0⟩ ∧ c.slave = ⟨0x28, 0xff, 0⟩

def Platform.Pending (p : Platform) : Prop := p.requests 0 = true ∨ p.requests 1 = true

theorem asserted_off (h : p.config.interruptFlag = false) : p.asserted = none := by
  rw [Platform.asserted, h]
  rfl

theorem asserted_shadow (h : p.shadow = true) : p.asserted = none := by
  rw [Platform.asserted, h, Bool.not_true, Bool.and_false]
  rfl

theorem asserted_eq_none_iff (h : Programmed p.config) (hFlag : p.config.interruptFlag = true)
    (hShadow : p.shadow = false) : p.asserted = none ↔ ¬ p.Pending := by
  have hMasked : ∀ irq ∈ priority, p.config.masked irq = decide (2 ≤ irq) := by
    intro irq hMem
    rw [Config.masked, h.1, h.2]
    revert irq
    decide
  have hOpen : (true && !false) = true := rfl
  rw [Platform.asserted, hFlag, hShadow, if_pos hOpen, List.find?_eq_none]
  constructor
  · rintro hNone (hRequest | hRequest)
    · exact hNone 0 (by decide) (by rw [hRequest, hMasked 0 (by decide)]; rfl)
    · exact hNone 1 (by decide) (by rw [hRequest, hMasked 1 (by decide)]; rfl)
  · intro hQuiet irq hMem hAsks
    rw [hMasked irq hMem, Bool.and_eq_true, Bool.not_eq_true', decide_eq_false_iff_not] at hAsks
    obtain ⟨hRequest, hLow⟩ := hAsks
    have hCases : irq = 0 ∨ irq = 1 := by omega
    rcases hCases with rfl | rfl
    · exact hQuiet (Or.inl hRequest)
    · exact hQuiet (Or.inr hRequest)

/-- Where nothing interrupts, the next instruction is executed. -/
theorem step_of_none (hNone : (b.platform.raise (arrivals b.clock)).asserted = none)
    (hCode : b.code = i :: code) : b.step arrivals =
      some ⟨(b.platform.raise (arrivals b.clock)).exec i, code, b.clock + 1⟩ := by
  simp only [Startup.step, hNone, hCode]

/-- Before `lidt` an interrupt goes nowhere. -/
theorem step_of_unloaded (hSome : (b.platform.raise (arrivals b.clock)).asserted ≠ none)
    (hUnloaded : b.platform.config.idtLoaded = false) : b.step arrivals = none := by
  obtain ⟨irq, hIrq⟩ := Option.ne_none_iff_exists'.mp hSome
  have hDeliver : (b.platform.raise (arrivals b.clock)).deliver irq = none := by
    apply if_neg
    rintro ⟨hLoaded, -⟩
    exact Bool.false_ne_true (hUnloaded.symm.trans hLoaded)
  simp only [Startup.step, hIrq, hDeliver, Option.map_none]

theorem foldl_exec_filter (l : List BootInstr) (c : Config) :
    (l.filter fun i => !i.isOther).foldl Config.exec c = l.foldl Config.exec c := by
  induction l generalizing c with
  | nil => rfl
  | cons i l ih =>
    cases i <;> exact ih _

theorem exec_interruptFlag (hi : i ≠ .sti) (h : c.interruptFlag = false) :
    (c.exec i).interruptFlag = false := by
  cases i with
  | sti => exact absurd rfl hi
  | inb port =>
    simp only [Config.exec, Config.inb]
    split_ifs <;> exact h
  | outb port value =>
    simp only [Config.exec, Config.outb]
    split_ifs <;> exact h
  | outbSaved port =>
    simp only [Config.exec, Config.outb]
    split_ifs <;> exact h
  | cli => rfl
  | editEntry entry => exact h
  | lidt => exact h
  | other => exact h

theorem exec_idtLoaded (hi : i ≠ .lidt) : (c.exec i).idtLoaded = c.idtLoaded := by
  cases i with
  | lidt => exact absurd rfl hi
  | inb port =>
    simp only [Config.exec, Config.inb]
    split_ifs <;> rfl
  | outb port value =>
    simp only [Config.exec, Config.outb]
    split_ifs <;> rfl
  | outbSaved port =>
    simp only [Config.exec, Config.outb]
    split_ifs <;> rfl
  | sti => rfl
  | cli => rfl
  | editEntry entry => rfl
  | other => rfl

end Instants

/-! ## Coming through -/

section Survival

variable {arrivals : Nat → Nat → Bool} {b b' : Startup}

/-- No interrupt ends the machine. -/
def Survives (arrivals : Nat → Nat → Bool) (b : Startup) : Prop :=
  ∀ n, b.run arrivals n ≠ none

theorem survives_iff :
    Survives arrivals b ↔ ∃ b', b.step arrivals = some b' ∧ Survives arrivals b' := by
  constructor
  · intro h
    have hFirst : b.step arrivals ≠ none := by
      intro hNone
      apply h 1
      rw [Startup.run, hNone]
      rfl
    obtain ⟨b', hStep⟩ := Option.ne_none_iff_exists'.mp hFirst
    refine ⟨b', hStep, fun n => ?_⟩
    have hNext := h (n + 1)
    rwa [Startup.run, hStep] at hNext
  · rintro ⟨b', hStep, h⟩ n
    cases n with
    | zero => exact Option.some_ne_none b
    | succ n =>
      rw [Startup.run, hStep]
      exact h n

theorem survives_of_step (hStep : b.step arrivals = some b') :
    Survives arrivals b ↔ Survives arrivals b' := by
  rw [survives_iff, hStep]
  constructor
  · rintro ⟨_, hEq, h⟩
    cases hEq
    exact h
  · exact fun h => ⟨b', rfl, h⟩

theorem not_survives_of_step (hStep : b.step arrivals = none) : ¬ Survives arrivals b := by
  rw [survives_iff, hStep]
  rintro ⟨_, hEq, -⟩
  cases hEq

/-- What every step keeps, and lets the machine take another step, carries it through. -/
theorem survives_of_invariant {I : Startup → Prop}
    (hStep : ∀ b, I b → ∃ b', b.step arrivals = some b' ∧ I b') (h : I b) :
    Survives arrivals b := by
  intro n
  induction n generalizing b with
  | zero => exact Option.some_ne_none b
  | succ n ih =>
    obtain ⟨b', hb', hI⟩ := hStep b h
    rw [Startup.run, hb']
    exact ih hI

end Survival

/-! ## Three stretches of the code -/

/-- Interrupts are off, with `pre` to be executed before the `sti` that is followed by `edits`. -/
structure Off (edits tail pre : List BootInstr) (b : Startup) : Prop where
  flag : b.platform.config.interruptFlag = false
  unloaded : b.platform.config.idtLoaded = false
  code : b.code = pre ++ .sti :: (edits ++ .lidt :: tail)
  plain : ∀ i ∈ pre, i ≠ .sti ∧ i ≠ .lidt
  programmed : Programmed (pre.foldl Config.exec b.platform.config)

/-- The instructions fill entries of the table. -/
def Fills (pre : List BootInstr) : Prop := ∀ i ∈ pre, i = .other ∨ ∃ entry, i = .editEntry entry

/-- Interrupts are on, with `pre` to be executed before `lidt`. -/
structure Exposed (tail pre : List BootInstr) (b : Startup) : Prop where
  flag : b.platform.config.interruptFlag = true
  unloaded : b.platform.config.idtLoaded = false
  code : b.code = pre ++ .lidt :: tail
  fills : Fills pre
  programmed : Programmed b.platform.config
  entries : ∀ v < 48, v ∈ b.platform.config.entries ∨ .editEntry v ∈ pre

/-- The instructions only turn interrupts on and off. -/
def Switches (code : List BootInstr) : Prop := ∀ i ∈ code, i = .other ∨ i = .cli ∨ i = .sti

structure Loaded (b : Startup) : Prop where
  loaded : b.platform.config.idtLoaded = true
  code : Switches b.code
  programmed : Programmed b.platform.config
  entries : ∀ v < 48, v ∈ b.platform.config.entries

section Stretches

variable {arrivals : Nat → Nat → Bool} {b : Startup} {i : BootInstr}
  {edits tail pre : List BootInstr}

theorem Off.step_cons (h : Off edits tail (i :: pre) b) (arrivals : Nat → Nat → Bool) :
    ∃ b', b.step arrivals = some b' ∧ Off edits tail pre b' ∧ b'.clock = b.clock + 1 ∧
      ∀ irq, b'.platform.requests irq =
        ((b.platform.raise (arrivals b.clock)).requests irq && !i.drops irq) := by
  obtain ⟨hSti, hLidt⟩ := h.plain i List.mem_cons_self
  refine ⟨_, step_of_none (asserted_off h.flag) h.code, ?_, rfl, fun _ => rfl⟩
  exact
    { flag := exec_interruptFlag hSti h.flag
      unloaded := (exec_idtLoaded hLidt).trans h.unloaded
      code := rfl
      plain := fun j hj => h.plain j (List.mem_cons_of_mem _ hj)
      programmed := h.programmed }

theorem Off.step_nil (h : Off edits tail [] b) (arrivals : Nat → Nat → Bool) (hFills : Fills edits)
    (hAll : ∀ v < 48, .editEntry v ∈ edits) :
    ∃ b', b.step arrivals = some b' ∧ Exposed tail edits b' ∧ b'.clock = b.clock + 1 ∧
      (b'.platform.Pending ↔ (b.platform.raise (arrivals b.clock)).Pending) := by
  refine ⟨_, step_of_none (asserted_off h.flag) h.code, ?_, rfl, ?_⟩
  · exact
      { flag := rfl
        unloaded := h.unloaded
        code := rfl
        fills := hFills
        programmed := h.programmed
        entries := fun v hv => Or.inr (hAll v hv) }
  · simp [Platform.Pending, Platform.exec, BootInstr.drops]

theorem Exposed.step_cons (h : Exposed tail (i :: pre) b)
    (hNone : (b.platform.raise (arrivals b.clock)).asserted = none) :
    ∃ b', b.step arrivals = some b' ∧ Exposed tail pre b' ∧ b'.clock = b.clock + 1 ∧
      b'.platform.shadow = false ∧
      (b'.platform.Pending ↔ (b.platform.raise (arrivals b.clock)).Pending) := by
  have hFills : Fills pre := fun j hj => h.fills j (List.mem_cons_of_mem _ hj)
  refine ⟨_, step_of_none hNone h.code, ?_, rfl, ?_, ?_⟩
  · rcases h.fills i List.mem_cons_self with rfl | ⟨entry, rfl⟩
    · refine ⟨h.flag, h.unloaded, rfl, hFills, h.programmed, fun v hv => ?_⟩
      refine (h.entries v hv).imp_right fun hMem => ?_
      exact (List.mem_cons.mp hMem).resolve_left nofun
    · refine ⟨h.flag, h.unloaded, rfl, hFills, h.programmed, fun v hv => ?_⟩
      rcases h.entries v hv with hMem | hMem
      · exact Or.inl (List.mem_cons_of_mem _ hMem)
      · rcases List.mem_cons.mp hMem with hEq | hMem
        · cases hEq
          exact Or.inl List.mem_cons_self
        · exact Or.inr hMem
  · apply decide_eq_false
    rintro ⟨-, hFlag⟩
    exact Bool.false_ne_true (hFlag.symm.trans h.flag)
  · rcases h.fills i List.mem_cons_self with rfl | ⟨entry, rfl⟩
    · simp [Platform.Pending, Platform.exec, BootInstr.drops]
    · simp [Platform.Pending, Platform.exec, BootInstr.drops]

theorem Exposed.step_nil (h : Exposed tail [] b) (hTail : Switches tail)
    (hNone : (b.platform.raise (arrivals b.clock)).asserted = none) :
    ∃ b', b.step arrivals = some b' ∧ Loaded b' := by
  refine ⟨_, step_of_none hNone h.code, ?_⟩
  exact
    { loaded := rfl
      code := hTail
      programmed := h.programmed
      entries := fun v hv => (h.entries v hv).resolve_right List.not_mem_nil }

theorem Loaded.ready (h : Loaded b) : b.platform.config.Ready where
  loaded := h.loaded
  exceptions v hv := h.entries v (by omega)
  irqs irq hIrq _ := by
    apply h.entries
    rw [Config.vector, h.programmed.1, h.programmed.2]
    dsimp only
    split_ifs <;> omega

theorem Loaded.deliver (h : Loaded b) {lines : Nat → Bool} {irq : Nat}
    (hIrq : (b.platform.raise lines).asserted = some irq) :
    ∃ p, (b.platform.raise lines).deliver irq = some p ∧ Loaded ⟨p, b.code, b.clock + 1⟩ := by
  have hMem : irq ∈ priority := by
    unfold Platform.asserted at hIrq
    split_ifs at hIrq
    exact List.mem_of_find?_eq_some hIrq
  have hLine : ∀ irq ∈ priority, irq < 16 := by decide
  have hEntry : b.platform.config.vector irq ∈ b.platform.config.entries := by
    apply h.entries
    rw [Config.vector, h.programmed.1, h.programmed.2]
    have hLt := hLine irq hMem
    dsimp only
    split_ifs <;> omega
  exact ⟨_, if_pos ⟨h.loaded, hEntry⟩, h.loaded, h.code, h.programmed, h.entries⟩

theorem Loaded.step (h : Loaded b) (arrivals : Nat → Nat → Bool) :
    ∃ b', b.step arrivals = some b' ∧ Loaded b' := by
  cases hAsserted : (b.platform.raise (arrivals b.clock)).asserted with
  | some irq =>
    obtain ⟨p, hDeliver, hLoaded⟩ := h.deliver hAsserted
    refine ⟨_, ?_, hLoaded⟩
    simp only [Startup.step, hAsserted, hDeliver, Option.map_some]
  | none =>
    cases hCode : b.code with
    | nil =>
      refine ⟨⟨{ b.platform.raise (arrivals b.clock) with shadow := false }, [], b.clock + 1⟩,
        ?_, ?_⟩
      · simp only [Startup.step, hAsserted, hCode]
      · exact ⟨h.loaded, nofun, h.programmed, h.entries⟩
    | cons i code =>
      have hRest : Switches code := fun j hj => h.code j (hCode ▸ List.mem_cons_of_mem _ hj)
      refine ⟨_, step_of_none hAsserted hCode, ?_⟩
      rcases h.code i (hCode ▸ List.mem_cons_self) with rfl | rfl | rfl
      · exact ⟨h.loaded, hRest, h.programmed, h.entries⟩
      · exact ⟨h.loaded, hRest, h.programmed, h.entries⟩
      · exact ⟨h.loaded, hRest, h.programmed, h.entries⟩

end Stretches

/-! ## Requests -/

section Requests

variable {arrivals : Nat → Nat → Bool} {b : Startup} {edits tail pre : List BootInstr}

/-- From the instant `first` to the instant `last` neither the timer nor the keyboard interrupts. -/
def Quiet (arrivals : Nat → Nat → Bool) (first last : Nat) : Prop :=
  ∀ n, first ≤ n → n ≤ last → arrivals n 0 = false ∧ arrivals n 1 = false

theorem pending_raise {p : Platform} {lines : Nat → Bool} :
    ¬ (p.raise lines).Pending ↔ ¬ p.Pending ∧ lines 0 = false ∧ lines 1 = false := by
  simp only [Platform.Pending, Platform.raise, Bool.or_eq_true, not_or, Bool.not_eq_true]
  tauto

theorem quiet_cons {first last : Nat} (hLe : first ≤ last) : Quiet arrivals first last ↔
    (arrivals first 0 = false ∧ arrivals first 1 = false) ∧ Quiet arrivals (first + 1) last := by
  constructor
  · intro h
    exact ⟨h first (Nat.le_refl _) hLe, fun n hn => h n (Nat.le_of_succ_le hn)⟩
  · rintro ⟨hFirst, h⟩ n hn hLast
    rcases Nat.eq_or_lt_of_le hn with rfl | hLt
    · exact hFirst
    · exact h n hLt hLast

/-- What was raised at an instant counts as requested from then on. -/
theorem quiet_raise {p : Platform} {first last : Nat} (hLe : first ≤ last) :
    ¬ (p.raise (arrivals first)).Pending ∧ Quiet arrivals (first + 1) last ↔
      ¬ p.Pending ∧ Quiet arrivals first last := by
  rw [pending_raise, quiet_cons hLe, and_assoc]

/-- A request that is pending before `lidt` ends the machine, at the latest one instruction after
the `sti`. -/
theorem Exposed.survives_iff (h : Exposed tail pre b) (hTail : Switches tail)
    (hShadow : b.platform.shadow = true → pre ≠ []) : Survives arrivals b ↔
      ¬ b.platform.Pending ∧ Quiet arrivals b.clock (b.clock + pre.length) := by
  induction pre generalizing b with
  | nil =>
    have hOpen : b.platform.shadow = false := by
      rw [← Bool.not_eq_true]
      exact fun hOn => hShadow hOn rfl
    have hAsserted := asserted_eq_none_iff (p := b.platform.raise (arrivals b.clock))
      h.programmed h.flag hOpen
    rw [List.length_nil, Nat.add_zero, ← quiet_raise (Nat.le_refl _), ← hAsserted]
    by_cases hNone : (b.platform.raise (arrivals b.clock)).asserted = none
    · obtain ⟨b', hStep, hLoaded⟩ := h.step_nil hTail hNone
      have hRest : Survives arrivals b' := survives_of_invariant (fun b hb => hb.step _) hLoaded
      refine iff_of_true ((survives_of_step hStep).mpr hRest) ⟨hNone, fun n hn hLast => ?_⟩
      omega
    · exact iff_of_false (not_survives_of_step (step_of_unloaded hNone h.unloaded))
        fun hBoth => hNone hBoth.1
  | cons i pre ih =>
    have hEnd : b.clock + (i :: pre).length = b.clock + 1 + pre.length := by
      rw [List.length_cons]
      omega
    rw [hEnd, ← quiet_raise (by omega)]
    by_cases hNone : (b.platform.raise (arrivals b.clock)).asserted = none
    · obtain ⟨b', hStep, hExposed, hClock, hOff, hPending⟩ := h.step_cons hNone
      rw [survives_of_step hStep, ih hExposed (fun hOn => absurd hOn (hOff ▸ Bool.false_ne_true)),
        hClock, hPending]
    · have hPending : (b.platform.raise (arrivals b.clock)).Pending := by
        by_contra hQuiet
        apply hNone
        cases hOn : b.platform.shadow with
        | true => exact asserted_shadow hOn
        | false =>
          exact (asserted_eq_none_iff (p := b.platform.raise (arrivals b.clock))
            h.programmed h.flag hOn).mpr hQuiet
      exact iff_of_false (not_survives_of_step (step_of_unloaded hNone h.unloaded))
        fun hBoth => hBoth.1 hPending

/-- While interrupts are off requests are kept. -/
theorem Off.survives_iff (h : Off edits tail pre b) (hTail : Switches tail) (hFills : Fills edits)
    (hAll : ∀ v < 48, .editEntry v ∈ edits) (hKeep : ∀ i ∈ pre, ∀ irq < 2, i.drops irq = false) :
    Survives arrivals b ↔ ¬ b.platform.Pending ∧
      Quiet arrivals b.clock (b.clock + (pre.length + 1 + edits.length)) := by
  induction pre generalizing b with
  | nil =>
    obtain ⟨b', hStep, hExposed, hClock, hPending⟩ := h.step_nil arrivals hFills hAll
    have hSome : edits ≠ [] := List.ne_nil_of_mem (hAll 0 (by decide))
    have hEnd : b.clock + (([] : List BootInstr).length + 1 + edits.length) =
        b'.clock + edits.length := by
      rw [hClock, List.length_nil]
      omega
    rw [hEnd, survives_of_step hStep, hExposed.survives_iff hTail fun _ => hSome, hPending, hClock,
      quiet_raise (by omega)]
  | cons i pre ih =>
    obtain ⟨b', hStep, hOff, hClock, hRequests⟩ := h.step_cons arrivals
    have hPending : b'.platform.Pending ↔ (b.platform.raise (arrivals b.clock)).Pending := by
      have hHere := hKeep i List.mem_cons_self
      simp only [Platform.Pending, hRequests, hHere 0 (by decide), hHere 1 (by decide),
        Bool.not_false, Bool.and_true]
    have hEnd : b.clock + ((i :: pre).length + 1 + edits.length) =
        b'.clock + (pre.length + 1 + edits.length) := by
      rw [hClock, List.length_cons]
      omega
    rw [hEnd, survives_of_step hStep, ih hOff fun j hj => hKeep j (List.mem_cons_of_mem _ hj),
      hPending, hClock, quiet_raise (by omega)]

/-- The first initialization word drops what was requested before. -/
theorem Off.survives_iff_of_reset {reset : BootInstr} {early mid : List BootInstr}
    (h : Off edits tail (early ++ reset :: mid) b) (hTail : Switches tail) (hFills : Fills edits)
    (hAll : ∀ v < 48, .editEntry v ∈ edits) (hReset : ∀ irq < 2, reset.drops irq = true)
    (hKeep : ∀ i ∈ mid, ∀ irq < 2, i.drops irq = false) :
    Survives arrivals b ↔ Quiet arrivals (b.clock + (early.length + 1))
      (b.clock + (early.length + 1 + (mid.length + 1 + edits.length))) := by
  induction early generalizing b with
  | nil =>
    obtain ⟨b', hStep, hOff, hClock, hRequests⟩ := h.step_cons arrivals
    have hNone : ¬ b'.platform.Pending := by
      simp [Platform.Pending, hRequests, hReset 0 (by decide), hReset 1 (by decide)]
    have hLast : b.clock + (([] : List BootInstr).length + 1 + (mid.length + 1 + edits.length)) =
        b'.clock + (mid.length + 1 + edits.length) := by
      rw [hClock, List.length_nil]
      omega
    rw [hLast, survives_of_step hStep, hOff.survives_iff hTail hFills hAll hKeep,
      and_iff_right hNone, hClock]
    rfl
  | cons i early ih =>
    obtain ⟨b', hStep, hOff, hClock, -⟩ := h.step_cons arrivals
    rw [survives_of_step hStep, ih hOff, hClock, List.length_cons]
    have hFirst : b.clock + 1 + (early.length + 1) = b.clock + (early.length + 1 + 1) := by omega
    have hLast : b.clock + 1 + (early.length + 1 + (mid.length + 1 + edits.length)) =
      b.clock + (early.length + 1 + 1 + (mid.length + 1 + edits.length)) := by omega
    rw [hFirst, hLast]

end Requests

/-! ## `kernel_main` -/

section Code

variable {α : Type} {a : α} {l xs ys : List α} {p : α → Bool} {n : Nat}

theorem filter_split (h : l.filter p = xs ++ a :: ys) :
    ∃ l₁ l₂, l = l₁ ++ a :: l₂ ∧ l₁.filter p = xs ∧ l₂.filter p = ys := by
  obtain ⟨l₁, l₂, rfl, hFirst, hRest⟩ := List.filter_eq_append_iff.mp h
  obtain ⟨l₃, l₄, rfl, hNone, -, hLast⟩ := List.filter_eq_cons_iff.mp hRest
  refine ⟨l₁ ++ l₃, l₄, by rw [List.append_assoc], ?_, hLast⟩
  rw [List.filter_append, hFirst, List.filter_eq_nil_iff.mpr hNone, List.append_nil]

theorem mem_take_iff (h : a ∉ xs) : a ∈ (xs ++ a :: ys).take n ↔ xs.length < n := by
  rw [List.take_append, List.mem_append]
  constructor
  · rintro (hMem | hMem)
    · exact absurd (List.mem_of_mem_take hMem) h
    · by_contra hLe
      rw [Nat.sub_eq_zero_of_le (Nat.not_lt.mp hLe)] at hMem
      cases hMem
  · intro hLt
    obtain ⟨k, hk⟩ := Nat.exists_eq_add_of_lt hLt
    have hRest : n - xs.length = k + 1 := by omega
    rw [hRest]
    exact Or.inr List.mem_cons_self

theorem mem_drop_iff (h : a ∉ ys) : a ∈ (xs ++ a :: ys).drop n ↔ n ≤ xs.length := by
  rw [List.drop_append, List.mem_append]
  constructor
  · rintro (hMem | hMem)
    · by_contra hLt
      rw [List.drop_of_length_le (by omega)] at hMem
      cases hMem
    · by_contra hLt
      obtain ⟨k, hk⟩ := Nat.exists_eq_add_of_lt (Nat.not_le.mp hLt)
      have hRest : n - xs.length = k + 1 := by omega
      rw [hRest] at hMem
      exact h (List.mem_of_mem_drop hMem)
  · intro hLe
    rw [Nat.sub_eq_zero_of_le hLe]
    exact Or.inr List.mem_cons_self

/-- What holds of the instructions that matter, and of any other. -/
theorem forall_of_filter {P : BootInstr → Prop} {code ops : List BootInstr} (hOther : P .other)
    (hOps : ∀ i ∈ ops, P i) (h : code.filter (fun i => !i.isOther) = ops) : ∀ i ∈ code, P i := by
  intro i hi
  by_cases hIs : i = .other
  · rw [hIs]
    exact hOther
  · apply hOps
    rw [← h]
    refine List.mem_filter.mpr ⟨hi, ?_⟩
    cases i <;> first | rfl | exact absurd rfl hIs

end Code

/-- The first initialization word, to the master. -/
abbrev reset : BootInstr := .outb 0x20 0x11

/-- Code that does what `kernel_main` does, cut at the three instructions that matter. -/
theorem exists_stretches {code : List BootInstr}
    (h : code.filter (fun i => !i.isOther) = kernelMainCode) : ∃ early mid edits tail,
      code = early ++ reset :: (mid ++ .sti :: (edits ++ .lidt :: tail)) ∧
      early.filter (fun i => !i.isOther) = [.inb 0x21, .inb 0xa1] ∧
      mid.filter (fun i => !i.isOther) = (picRemap 0x20 0x28).drop 3 ++
        [.outb 0x21 0xfc, .outb 0xa1 0xff] ∧
      edits.filter (fun i => !i.isOther) = addToInterruptTable ++ setAllInterrupts ∧
      tail.filter (fun i => !i.isOther) = processingInitialize := by
  have hCode : kernelMainCode = [.inb 0x21, .inb 0xa1] ++ reset ::
      ((picRemap 0x20 0x28).drop 3 ++ [.outb 0x21 0xfc, .outb 0xa1 0xff] ++ .sti ::
        (addToInterruptTable ++ setAllInterrupts ++ .lidt :: processingInitialize)) := rfl
  rw [hCode] at h
  obtain ⟨early, rest, rfl, hEarly, hRest⟩ := filter_split h
  obtain ⟨mid, rest, rfl, hMid, hRest⟩ := filter_split hRest
  obtain ⟨edits, tail, rfl, hEdits, hTail⟩ := filter_split hRest
  exact ⟨early, mid, edits, tail, rfl, hEarly, hMid, hEdits, hTail⟩

/-- The masks that were read are written back, and then replaced. -/
theorem programmed_of_stretches {early mid : List BootInstr} (c : Config)
    (hEarly : early.filter (fun i => !i.isOther) = [.inb 0x21, .inb 0xa1])
    (hMid : mid.filter (fun i => !i.isOther) = (picRemap 0x20 0x28).drop 3 ++
      [.outb 0x21 0xfc, .outb 0xa1 0xff]) :
    Programmed ((early ++ reset :: mid).foldl Config.exec c) := by
  rw [← foldl_exec_filter, List.filter_append, hEarly, List.filter_cons_of_pos rfl, hMid]
  simp [Programmed, picRemap, Config.exec, Config.inb, Config.outb, Pic.command, Pic.data,
    Nat.testBit]

section Entry

variable {arrivals : Nat → Nat → Bool} {code edits tail : List BootInstr}

theorem startup_stretches (master slave : Pic) (requests : Nat → Bool)
    (h : code.filter (fun i => !i.isOther) = kernelMainCode) :
    ∃ early mid edits tail, code = early ++ reset :: (mid ++ .sti :: (edits ++ .lidt :: tail)) ∧
      Off edits tail (early ++ reset :: mid) (Startup.entry master slave requests code) ∧
      Switches tail ∧ Fills edits ∧ (∀ v < 48, .editEntry v ∈ edits) ∧
      (∀ i ∈ mid, ∀ irq < 2, i.drops irq = false) ∧ reset ∉ early ∧ .lidt ∉ tail := by
  obtain ⟨early, mid, edits, tail, hCode, hEarly, hMid, hEdits, hTail⟩ := exists_stretches h
  have hEntries : ∀ v < 48, .editEntry v ∈ addToInterruptTable ++ setAllInterrupts := by decide
  refine ⟨early, mid, edits, tail, hCode, ?_, ?_, ?_, ?_, ?_, ?_, ?_⟩
  · refine ⟨rfl, rfl, ?_, ?_, programmed_of_stretches _ hEarly hMid⟩
    · rw [List.append_assoc]
      exact hCode
    · rw [List.forall_mem_append, List.forall_mem_cons]
      refine ⟨?_, by decide, ?_⟩
      · exact forall_of_filter (P := fun i => i ≠ .sti ∧ i ≠ .lidt) (by decide) (by decide) hEarly
      · exact forall_of_filter (P := fun i => i ≠ .sti ∧ i ≠ .lidt) (by decide) (by decide) hMid
  · exact forall_of_filter (P := fun i => i = .other ∨ i = .cli ∨ i = .sti) (Or.inl rfl)
      (by decide) hTail
  · refine forall_of_filter (P := fun i => i = .other ∨ ∃ entry, i = .editEntry entry)
      (Or.inl rfl) ?_ hEdits
    intro i hi
    rw [addToInterruptTable, setAllInterrupts, ← List.map_append] at hi
    obtain ⟨entry, -, rfl⟩ := List.mem_map.mp hi
    exact Or.inr ⟨entry, rfl⟩
  · intro v hv
    have hMem := hEntries v hv
    rw [← hEdits] at hMem
    exact List.mem_of_mem_filter hMem
  · exact forall_of_filter (P := fun i => ∀ irq < 2, i.drops irq = false) (by decide) (by decide)
      hMid
  · intro hMem
    exact forall_of_filter (P := fun i => i ≠ reset) (by decide) (by decide) hEarly _ hMem rfl
  · intro hMem
    exact forall_of_filter (P := fun i => i ≠ .lidt) (by decide) (by decide) hTail _ hMem rfl

/-- Every instant is in one of the three stretches. -/
theorem stretch_of_run {b b' : Startup} {pre : List BootInstr} {n : Nat} (h : Off edits tail pre b)
    (hTail : Switches tail) (hFills : Fills edits) (hAll : ∀ v < 48, .editEntry v ∈ edits)
    (hRun : b.run arrivals n = some b') :
    (∃ pre, Off edits tail pre b') ∨ (∃ pre, Exposed tail pre b') ∨ Loaded b' := by
  suffices hFrom : ∀ b, ((∃ pre, Off edits tail pre b) ∨ (∃ pre, Exposed tail pre b) ∨ Loaded b) →
      ∀ b', b.step arrivals = some b' →
        (∃ pre, Off edits tail pre b') ∨ (∃ pre, Exposed tail pre b') ∨ Loaded b' by
    have hStart : (∃ pre, Off edits tail pre b) ∨ (∃ pre, Exposed tail pre b) ∨ Loaded b :=
      Or.inl ⟨pre, h⟩
    clear h
    induction n generalizing b with
    | zero =>
      cases hRun
      exact hStart
    | succ n ih =>
      obtain ⟨b₁, hStep, hRest⟩ := Option.bind_eq_some_iff.mp hRun
      exact ih hRest (hFrom b hStart b₁ hStep)
  rintro b (⟨pre, hOff⟩ | ⟨pre, hExposed⟩ | hLoaded) b' hStep
  · cases pre with
    | nil =>
      obtain ⟨_, hStep', hExposed, -⟩ := hOff.step_nil arrivals hFills hAll
      cases hStep.symm.trans hStep'
      exact Or.inr (Or.inl ⟨edits, hExposed⟩)
    | cons i pre =>
      obtain ⟨_, hStep', hOff', -⟩ := hOff.step_cons arrivals
      cases hStep.symm.trans hStep'
      exact Or.inl ⟨pre, hOff'⟩
  · have hNone : (b.platform.raise (arrivals b.clock)).asserted = none := by
      by_contra hSome
      rw [step_of_unloaded hSome hExposed.unloaded] at hStep
      cases hStep
    cases pre with
    | nil =>
      obtain ⟨_, hStep', hLoaded⟩ := hExposed.step_nil hTail hNone
      cases hStep.symm.trans hStep'
      exact Or.inr (Or.inr hLoaded)
    | cons i pre =>
      obtain ⟨_, hStep', hExposed', -⟩ := hExposed.step_cons hNone
      cases hStep.symm.trans hStep'
      exact Or.inr (Or.inl ⟨pre, hExposed'⟩)
  · obtain ⟨_, hStep', hLoaded'⟩ := hLoaded.step arrivals
    cases hStep.symm.trans hStep'
    exact Or.inr (Or.inr hLoaded')

/-- At an instant with interrupts on there is a table to take them exactly when `lidt` has been
executed. The machine comes through exactly when no interrupt of the timer or the keyboard is
raised between the reset of the controller and `lidt`. -/
theorem startup_iff (arrivals : Nat → Nat → Bool) (master slave : Pic) (requests : Nat → Bool)
    (h : code.filter (fun i => !i.isOther) = kernelMainCode) :
    (∀ n b, (Startup.entry master slave requests code).run arrivals n = some b →
      b.platform.config.interruptFlag = true →
        (b.platform.config.Ready ↔ .lidt ∉ b.code)) ∧
    (Survives arrivals (Startup.entry master slave requests code) ↔
      ∀ n, reset ∈ code.take n → .lidt ∈ code.drop n →
        arrivals n 0 = false ∧ arrivals n 1 = false) := by
  obtain ⟨early, mid, edits, tail, hCode, hOff, hTail, hFills, hAll, hKeep, hEarly, hLidt⟩ :=
    startup_stretches master slave requests h
  constructor
  · intro n b hRun hFlag
    rcases stretch_of_run hOff hTail hFills hAll hRun with ⟨pre, hOff'⟩ | ⟨pre, hExposed⟩ | hLoaded
    · exact absurd (hOff'.flag.symm.trans hFlag) Bool.false_ne_true
    · have hUnloaded : ¬ b.platform.config.Ready := by
        intro hReady
        exact Bool.false_ne_true (hExposed.unloaded.symm.trans hReady.loaded)
      have hLeft : .lidt ∈ b.code := by
        rw [hExposed.code]
        simp
      exact iff_of_false hUnloaded (not_not.mpr hLeft)
    · refine iff_of_true hLoaded.ready fun hMem => ?_
      rcases hLoaded.code _ hMem with hEq | hEq | hEq <;> cases hEq
  · have hReset (n : Nat) : reset ∈ code.take n ↔ early.length < n := by
      rw [hCode]
      exact mem_take_iff hEarly
    have hEnd (n : Nat) : .lidt ∈ code.drop n ↔
        n ≤ early.length + 1 + (mid.length + 1 + edits.length) := by
      have hSplit : code = early ++ reset :: (mid ++ .sti :: edits) ++ .lidt :: tail := by
        rw [hCode]
        simp
      rw [hSplit, mem_drop_iff hLidt]
      simp only [List.length_append, List.length_cons]
      omega
    rw [hOff.survives_iff_of_reset hTail hFills hAll (by decide) hKeep]
    constructor
    · intro hQuiet n hAfter hBefore
      apply hQuiet n
      · have hLt := (hReset n).mp hAfter
        show 0 + (early.length + 1) ≤ n
        omega
      · have hLe := (hEnd n).mp hBefore
        show n ≤ 0 + (early.length + 1 + (mid.length + 1 + edits.length))
        omega
    · intro hNone n hFirst hLast
      have hFirst' : 0 + (early.length + 1) ≤ n := hFirst
      have hLast' : n ≤ 0 + (early.length + 1 + (mid.length + 1 + edits.length)) := hLast
      apply hNone n
      · rw [hReset]
        omega
      · rw [hEnd]
        omega

end Entry

/-- The controllers as the firmware leaves them, and nothing requested. -/
abbrev firmware (code : List BootInstr) : Startup :=
  .entry ⟨0x08, 0xb8, 0⟩ ⟨0x70, 0x8f, 0⟩ (fun _ => false) code

/-- A timer that fires at every instant but those between the reset and `lidt`. -/
theorem startup_iff_late : Survives (fun n irq => irq = 0 ∧ (n ≤ 5 ∨ 128 ≤ n))
    (firmware (kernelMainCode.flatMap fun i => [.other, i])) := by
  have hFirst : ∀ n ≤ 5, reset ∉ (kernelMainCode.flatMap fun i => [.other, i]).take n := by decide
  have hLast : .lidt ∉ (kernelMainCode.flatMap fun i => [.other, i]).drop 128 := by decide
  refine (startup_iff _ _ _ _ (by decide)).2.mpr fun n hAfter hBefore => ?_
  have hLow : ¬ n ≤ 5 := fun hLe => hFirst n hLe hAfter
  have hHigh : ¬ 128 ≤ n := by
    intro hLe
    obtain ⟨k, rfl⟩ := Nat.exists_eq_add_of_le hLe
    rw [← List.drop_drop] at hBefore
    exact hLast (List.mem_of_mem_drop hBefore)
  simp [hLow, hHigh]

/-- The timer fires right after the `sti` in `_EnableDevices`. -/
theorem not_survives_timer :
    kernelMainCode.filter (fun i => !i.isOther) = kernelMainCode ∧
    (∃ b, (firmware kernelMainCode).run (fun n irq => n = 15 ∧ irq = 0) 16 = some b ∧
      b.platform.config.interruptFlag = true ∧ ¬ b.platform.config.Ready) ∧
    (firmware kernelMainCode).run (fun n irq => n = 15 ∧ irq = 0) 17 = none := by
  have hBefore : ((firmware kernelMainCode).run (fun n irq => n = 15 ∧ irq = 0) 16).map
      (fun b => (b.platform.config.interruptFlag, b.platform.config.idtLoaded)) =
        some (true, false) := by
    decide +kernel
  have hEnd : ((firmware kernelMainCode).run (fun n irq => n = 15 ∧ irq = 0) 17).isNone := by
    decide +kernel
  obtain ⟨b, hb, hEq⟩ := Option.map_eq_some_iff.mp hBefore
  simp only [Prod.mk.injEq] at hEq
  obtain ⟨hFlag, hLoaded⟩ := hEq
  refine ⟨by decide, ⟨b, hb, hFlag, ?_⟩, Option.isNone_iff_eq_none.mp hEnd⟩
  intro hReady
  exact Bool.false_ne_true (hLoaded.symm.trans hReady.loaded)

end Juos.Interrupts
