import Juos.Interrupts.Startup
import Juos.Machine.Run

/-!
# The end of an interrupt

A controller keeps a line in service from the moment the processor takes its interrupt until it is
told the end of one, and lets no line of the same or a lower priority through before that. The
command does not name the line: the controller ends the one of the highest priority.

`irq_handler` gives the command before it calls the handler, by the number of the interrupt only.
`accepted_of_run` shows over any sequence of interrupts, also spurious ones, of handlers that are
interrupted and of ticks that go on in another process, that this is right: while interrupts are on
nothing is in service, and every request that is not masked is let through.
-/

namespace Juos.Interrupts

open Machine

/-! ## The controllers -/

/-- The lines of both controllers that are in service. -/
structure InService where
  master : Nat → Bool
  slave : Nat → Bool

/-- The end of an interrupt, for the line of the highest priority. -/
def endOfInterrupt (lines : Nat → Bool) : Nat → Bool :=
  match (List.range 8).find? lines with
  | none => lines
  | some line => Function.update lines line false

namespace InService

def nothing : InService := ⟨fun _ => false, fun _ => false⟩

/-- The processor takes the interrupt of a line. The slave is at line 2 of the master. -/
def enter (irq : Nat) (s : InService) : InService :=
  if irq < 8 then { s with master := Function.update s.master irq true }
  else ⟨Function.update s.master 2 true, Function.update s.slave (irq - 8) true⟩

/-- The processor takes an interrupt whose request is gone. The number is that of the last line of
the controller, which has nothing in service; a spurious line of the slave is one to the master. -/
def enterSpurious (ofSlave : Bool) (s : InService) : InService :=
  if ofSlave then { s with master := Function.update s.master 2 true } else s

/-- The byte 0x20 at a command port. -/
def outb (port : Nat) (s : InService) : InService :=
  if port = 0x20 then { s with master := endOfInterrupt s.master }
  else if port = 0xa0 then { s with slave := endOfInterrupt s.slave }
  else s

/-- What the lines in service let through. -/
def admits (irq : Nat) (s : InService) : Bool :=
  if irq < 8 then (List.range (irq + 1)).all fun j => !s.master j
  else ((List.range 3).all fun j => !s.master j) &&
    (List.range (irq - 8 + 1)).all fun j => !s.slave j

end InService

/-- `PIC_IS_SLAVE` -/
def picIsSlave (num : Nat) : Bool := decide (40 ≤ num) && decide (num ≤ 47)

/-- The ports that `irq_handler` writes to. -/
def acknowledgePorts (intNo : Nat) : List Nat := if picIsSlave intNo then [0x20, 0xa0] else [0x20]

def acknowledge (intNo : Nat) (s : InService) : InService :=
  (acknowledgePorts intNo).foldl (fun s port => s.outb port) s

/-! ## The machine -/

/-- An interrupt that has not returned yet. -/
structure Frame where
  intNo : Nat
  /-- `irq_handler` has acknowledged it, and the handler is called -/
  acknowledged : Bool
  /-- the interrupt flag of the code that was interrupted -/
  interruptFlag : Bool
  deriving DecidableEq, Repr

universe u

/-- The processes with the interrupts on their stacks, the last one first. -/
structure Interruptible (ι : Type u) where
  current : ι
  frames : ι → List Frame
  interruptFlag : Bool
  requests : Nat → Bool
  service : InService

inductive AckEvent (ι : Type u) where
  | raise (irq : Nat)
  /-- a device takes its request back -/
  | withdraw (irq : Nat)
  | interrupt (irq : Nat)
  | spurious (ofSlave : Bool)
  | acknowledge
  | sti
  | cli
  | iret
  /-- the handler of the timer goes on in another process -/
  | switch (next : ι)
  deriving DecidableEq, Repr

section Machine

variable {ι : Type u} [DecidableEq ι]

namespace Interruptible

def setFrames (s : Interruptible ι) (below : List Frame) : Interruptible ι :=
  { s with frames := Function.update s.frames s.current below }

/-- The gates of the table turn interrupts off. -/
def enter (s : Interruptible ι) (intNo : Nat) (service : InService) : Interruptible ι :=
  { s.setFrames (⟨intNo, false, s.interruptFlag⟩ :: s.frames s.current) with
    interruptFlag := false
    service := service }

/-- What runs is a process or a handler, and not the code before it. -/
def InHandler (s : Interruptible ι) : Prop :=
  ∀ f ∈ (s.frames s.current).head?, f.acknowledged = true

end Interruptible

inductive AckStep (config : Config) : Interruptible ι → AckEvent ι → Interruptible ι → Prop
  | raise {s : Interruptible ι} (irq : Nat) :
      AckStep config s (.raise irq) { s with requests := Function.update s.requests irq true }
  | withdraw {s : Interruptible ι} (irq : Nat) :
      AckStep config s (.withdraw irq) { s with requests := Function.update s.requests irq false }
  | interrupt {s : Interruptible ι} {irq : Nat} (hLine : irq < 16 ∧ irq ≠ 2)
      (hFlag : s.interruptFlag = true) (hRequest : s.requests irq = true)
      (hMask : config.masked irq = false) (hAdmits : s.service.admits irq = true) :
      AckStep config s (.interrupt irq)
        { s.enter (config.vector irq) (s.service.enter irq) with
          requests := Function.update s.requests irq false }
  | spurious {s : Interruptible ι} (ofSlave : Bool) (hFlag : s.interruptFlag = true)
      (hAdmits : s.service.admits (if ofSlave then 2 else 7) = true) :
      AckStep config s (.spurious ofSlave)
        (s.enter (config.vector (if ofSlave then 15 else 7)) (s.service.enterSpurious ofSlave))
  | acknowledge {s : Interruptible ι} {f : Frame} {below : List Frame}
      (hTop : s.frames s.current = f :: below) (hNew : f.acknowledged = false) :
      AckStep config s .acknowledge
        { s.setFrames ({ f with acknowledged := true } :: below) with
          service := acknowledge f.intNo s.service }
  | sti {s : Interruptible ι} (hHandler : s.InHandler) :
      AckStep config s .sti { s with interruptFlag := true }
  | cli {s : Interruptible ι} (hHandler : s.InHandler) :
      AckStep config s .cli { s with interruptFlag := false }
  | iret {s : Interruptible ι} {f : Frame} {below : List Frame}
      (hTop : s.frames s.current = f :: below) (hDone : f.acknowledged = true) :
      AckStep config s .iret { s.setFrames below with interruptFlag := f.interruptFlag }
  | switch {s : Interruptible ι} (next : ι) (hHandler : s.InHandler) :
      AckStep config s (.switch next) { s with current := next, interruptFlag := true }

/-- No interrupt has been taken. -/
def Interruptible.start (current : ι) (interruptFlag : Bool) (requests : Nat → Bool) :
    Interruptible ι :=
  ⟨current, fun _ => [], interruptFlag, requests, .nothing⟩

end Machine

/-! ## One interrupt -/

theorem endOfInterrupt_nothing : endOfInterrupt (fun _ => false) = fun _ => false := rfl

theorem endOfInterrupt_single {line : Nat} (h : line < 8) :
    endOfInterrupt (Function.update (fun _ => false) line true) = fun _ => false := by
  have hEach : ∀ line : Fin 8,
      (List.range 8).find? (Function.update (fun _ => false) line.val true) = some line.val := by
    decide
  rw [endOfInterrupt, hEach ⟨line, h⟩]
  dsimp only
  rw [Function.update_idem, Function.update_eq_self]

/-- The acknowledgement of an interrupt ends the line, or the lines, that it was of. -/
theorem acknowledge_enter {irq : Nat} (h : irq < 16) :
    acknowledge (32 + irq) (InService.nothing.enter irq) = .nothing := by
  by_cases hMaster : irq < 8
  · have hPorts : acknowledgePorts (32 + irq) = [0x20] := by
      rw [acknowledgePorts, if_neg]
      simp [picIsSlave]
      omega
    rw [acknowledge, hPorts, InService.enter, if_pos hMaster]
    simp only [List.foldl_cons, List.foldl_nil, InService.outb, if_pos]
    rw [InService.nothing, endOfInterrupt_single hMaster]
  · have hPorts : acknowledgePorts (32 + irq) = [0x20, 0xa0] := by
      rw [acknowledgePorts, if_pos]
      simp [picIsSlave]
      omega
    rw [acknowledge, hPorts, InService.enter, if_neg hMaster]
    have hLine : irq - 8 < 8 := by omega
    have hSlave := endOfInterrupt_single hLine
    have hCascaded : endOfInterrupt (Function.update (fun _ => false) 2 true) = _ :=
      endOfInterrupt_single (by decide)
    simp [InService.outb, InService.nothing, hSlave, hCascaded]

theorem acknowledge_enterSpurious (ofSlave : Bool) :
    acknowledge (32 + if ofSlave then 15 else 7) (InService.nothing.enterSpurious ofSlave) =
      .nothing := by
  cases ofSlave with
  | false => rfl
  | true =>
    have hCascaded : endOfInterrupt (Function.update (fun _ => false) 2 true) = _ :=
      endOfInterrupt_single (by decide)
    simp [acknowledge, acknowledgePorts, picIsSlave, InService.enterSpurious, InService.outb,
      InService.nothing, hCascaded, endOfInterrupt_nothing]

theorem admits_nothing (irq : Nat) : InService.nothing.admits irq = true := by
  simp [InService.admits, InService.nothing]

/-! ## Runs -/

section Runs

variable {ι : Type u} [DecidableEq ι] {config : Config} {s s' : Interruptible ι}
  {e : AckEvent ι} {es : List (AckEvent ι)} {below : List Frame} {f : Frame} {i current : ι}
  {interruptFlag : Bool} {requests : Nat → Bool}

/-- The interrupts on this stack are acknowledged. -/
def Acknowledged (below : List Frame) : Prop := ∀ f ∈ below, f.acknowledged = true

/-- At most the last interrupt is not acknowledged, and it will leave nothing in service. -/
inductive Balanced (s : Interruptible ι) : Prop
  | handling (hAll : ∀ i, Acknowledged (s.frames i)) (hService : s.service = .nothing)
  | entered {f : Frame} {below : List Frame} (hTop : s.frames s.current = f :: below)
      (hNew : f.acknowledged = false) (hRest : Acknowledged below)
      (hOthers : ∀ i, i ≠ s.current → Acknowledged (s.frames i)) (hFlag : s.interruptFlag = false)
      (hService : acknowledge f.intNo s.service = .nothing)

theorem frames_setFrames_self (s : Interruptible ι) (below : List Frame) :
    (s.setFrames below).frames s.current = below := Function.update_self ..

theorem frames_setFrames_of_ne (below : List Frame) (hne : i ≠ s.current) :
    (s.setFrames below).frames i = s.frames i := Function.update_of_ne hne ..

omit [DecidableEq ι] in
theorem inHandler_of_top (hTop : s.frames s.current = f :: below)
    (hDone : f.acknowledged = true) : s.InHandler := by
  intro g hg
  rw [hTop] at hg
  obtain rfl := Option.some.inj hg
  exact hDone

omit [DecidableEq ι] in
/-- With interrupts on, or in a handler, the last interrupt is acknowledged. -/
theorem Balanced.handled (h : Balanced s) (hHandler : s.interruptFlag = true ∨ s.InHandler) :
    (∀ i, Acknowledged (s.frames i)) ∧ s.service = .nothing := by
  cases h with
  | handling hAll hService => exact ⟨hAll, hService⟩
  | @entered f below hTop hNew hRest hOthers hFlag hService =>
    exfalso
    rcases hHandler with hOn | hInside
    · rw [hFlag] at hOn
      cases hOn
    · have hDone := hInside f (by rw [hTop]; rfl)
      rw [hNew] at hDone
      cases hDone

/-- The processor takes an interrupt that the handler will acknowledge. -/
theorem Balanced.enter (hAll : ∀ i, Acknowledged (s.frames i)) {intNo : Nat} {service : InService}
    (hService : acknowledge intNo service = .nothing) : Balanced (s.enter intNo service) := by
  refine .entered (frames_setFrames_self s _) rfl (hAll s.current) (fun i hi => ?_) rfl hService
  have hSame : (s.enter intNo service).frames i = s.frames i := frames_setFrames_of_ne _ hi
  rw [hSame]
  exact hAll i

/-- What is on the stacks after one of them is changed. -/
theorem acknowledged_setFrames (hOthers : ∀ i, i ≠ s.current → Acknowledged (s.frames i))
    (hFrames : Acknowledged below) (i : ι) : Acknowledged ((s.setFrames below).frames i) := by
  by_cases hi : i = s.current
  · rw [hi, frames_setFrames_self]
    exact hFrames
  · rw [frames_setFrames_of_ne below hi]
    exact hOthers i hi

theorem balanced_step (hMaster : config.master.offset = 0x20) (hSlave : config.slave.offset = 0x28)
    (h : Balanced s) (hStep : AckStep config s e s') : Balanced s' := by
  have hVector : ∀ irq, irq < 16 → config.vector irq = 32 + irq := by
    intro irq hIrq
    rw [Config.vector, hMaster, hSlave]
    split <;> omega
  cases hStep with
  | raise irq =>
    cases h with
    | handling hAll hService => exact .handling hAll hService
    | entered hTop hNew hRest hOthers hFlag hService =>
      exact .entered hTop hNew hRest hOthers hFlag hService
  | withdraw irq =>
    cases h with
    | handling hAll hService => exact .handling hAll hService
    | entered hTop hNew hRest hOthers hFlag hService =>
      exact .entered hTop hNew hRest hOthers hFlag hService
  | @interrupt irq hLine hFlag hRequest hMask hAdmits =>
    obtain ⟨hAll, hService⟩ := h.handled (.inl hFlag)
    have hEnd : acknowledge (config.vector irq) (s.service.enter irq) = .nothing := by
      rw [hVector irq hLine.1, hService]
      exact acknowledge_enter hLine.1
    cases Balanced.enter hAll hEnd with
    | handling hAll hService => exact .handling hAll hService
    | entered hTop hNew hRest hOthers hFlag hService =>
      exact .entered hTop hNew hRest hOthers hFlag hService
  | spurious ofSlave hFlag hAdmits =>
    obtain ⟨hAll, hService⟩ := h.handled (.inl hFlag)
    apply Balanced.enter hAll
    rw [hVector _ (by split <;> omega), hService]
    exact acknowledge_enterSpurious ofSlave
  | @acknowledge f below hTop hNew =>
    cases h with
    | handling hAll hService =>
      have hDone := hAll s.current f (by rw [hTop]; exact List.mem_cons_self)
      rw [hNew] at hDone
      cases hDone
    | @entered f' below' hTop' hNew' hRest hOthers hFlag hService =>
      obtain ⟨rfl, rfl⟩ := List.cons.inj (hTop.symm.trans hTop')
      refine .handling (acknowledged_setFrames hOthers ?_) hService
      exact List.forall_mem_cons.mpr ⟨rfl, hRest⟩
  | sti hHandler =>
    obtain ⟨hAll, hService⟩ := h.handled (.inr hHandler)
    exact .handling hAll hService
  | cli hHandler =>
    obtain ⟨hAll, hService⟩ := h.handled (.inr hHandler)
    exact .handling hAll hService
  | @iret f below hTop hDone =>
    obtain ⟨hAll, hService⟩ := h.handled (.inr (inHandler_of_top hTop hDone))
    refine .handling (acknowledged_setFrames (fun i _ => hAll i) fun g hg => ?_) hService
    exact hAll s.current g (by rw [hTop]; exact List.mem_cons_of_mem _ hg)
  | switch next hHandler =>
    obtain ⟨hAll, hService⟩ := h.handled (.inr hHandler)
    exact .handling hAll hService

/-- While interrupts are on, every interrupt that was taken has been acknowledged and no line is in
service: a request is let through unless it is masked. -/
theorem accepted_of_run (hMaster : config.master.offset = 0x20)
    (hSlave : config.slave.offset = 0x28)
    (hRun : Run (AckStep config) (.start current interruptFlag requests) es s)
    (hFlag : s.interruptFlag = true) :
    (∀ i, Acknowledged (s.frames i)) ∧ s.service = .nothing ∧ ∀ irq, irq < 16 → irq ≠ 2 →
      ((∃ s', AckStep config s (.interrupt irq) s') ↔
        s.requests irq = true ∧ config.masked irq = false) := by
  have hBalanced : Balanced s := by
    refine hRun.invariant ?_ fun _ _ _ => balanced_step hMaster hSlave
    exact .handling (fun i f hf => nomatch hf) rfl
  obtain ⟨hAll, hService⟩ := hBalanced.handled (.inl hFlag)
  refine ⟨hAll, hService, fun irq hIrq hCascade => ⟨?_, ?_⟩⟩
  · rintro ⟨s', hStep⟩
    cases hStep with
    | interrupt hLine hFlag hRequest hMask hAdmits => exact ⟨hRequest, hMask⟩
  · rintro ⟨hRequest, hMask⟩
    have hAdmits : s.service.admits irq = true := by rw [hService, admits_nothing]
    exact ⟨_, .interrupt ⟨hIrq, hCascade⟩ hFlag hRequest hMask hAdmits⟩

end Runs

/-- Line 9 interrupts a process, and while its handler runs, line 0 interrupts it and goes on in
another process. -/
def twoLines : List (AckEvent Bool) :=
  [.raise 9, .interrupt 9, .acknowledge, .sti, .raise 0, .interrupt 0, .acknowledge, .switch true]

/-- The controllers as they are programmed, with no line masked. -/
def unmasked : Config := ⟨true, true, [], ⟨0x20, 0, 0⟩, ⟨0x28, 0, 0⟩, fun _ => 0⟩

theorem accepted_twoLines : ∃ s : Interruptible Bool,
    Run (AckStep unmasked) (.start false true fun _ => false) twoLines s ∧
    (∀ i, Acknowledged (s.frames i)) ∧ s.service = .nothing ∧ ∀ irq, irq < 16 → irq ≠ 2 →
      ((∃ s', AckStep unmasked s (.interrupt irq) s') ↔
        s.requests irq = true ∧ unmasked.masked irq = false) := by
  have hRun : Run (AckStep unmasked) (.start false true fun _ => false) twoLines _ :=
    .tail (.tail (.tail (.tail (.tail (.tail (.tail (.tail .refl (.raise 9))
      (.interrupt ⟨by decide, by decide⟩ rfl rfl rfl rfl)) (.acknowledge rfl rfl))
      (.sti (inHandler_of_top rfl rfl))) (.raise 0))
      (.interrupt ⟨by decide, by decide⟩ rfl rfl rfl rfl)) (.acknowledge rfl rfl))
      (.switch true (inHandler_of_top rfl rfl))
  exact ⟨_, hRun, accepted_of_run rfl rfl hRun rfl⟩

end Juos.Interrupts
