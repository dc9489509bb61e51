import Juos.Machine.Run
import Mathlib.Logic.Function.Basic

/-!
# The table of interrupt handlers

`interrupt_handlers` over the steps of `kernel_main`, with interrupts at any time between them.
`paging::Initialize` installs the page fault handler before it turns paging on, and
`Interrupts::Initialize`, which comes later, empties the table. `pageFault_installed_iff` says in
which of the reachable states the handler is there.
-/

namespace Juos.Interrupts

open Machine

/-- The functions that are passed to `set_handler`. -/
inductive Handler where
  | pageFaultHandler
  | tickHandler
  | keyboardHandler
  deriving DecidableEq, Repr

/-- `interrupt_handlers`; null is `none`. -/
abbrev Handlers := Nat → Option Handler

def setHandler (interruptNum : Nat) (handler : Handler) (handlers : Handlers) : Handlers :=
  Function.update handlers interruptNum (some handler)

/-- The loop of `Interrupts::Initialize`. -/
def initializeHandlers (handlers : Handlers) : Handlers :=
  fun i => if i < 256 then none else handlers i

/-- `_go_to_interrupt`: the handler that is called; `none` if the interrupt is only logged. -/
def goToInterrupt (handlers : Handlers) (intNo : Nat) : Option Handler := handlers (intNo % 65536)

/-! ## Boot -/

/-- The calls of `kernel_main`. -/
inductive BootStep where
  | ttyInitialize
  | gdtInitialize
  | idtInitialize
  | memoryManagerInitialize
  | newScheduler
  | processingInitialize
  | interruptsInitialize
  | initializeKeyboard
  | timerStart
  deriving DecidableEq, Repr

def kernelMain : List BootStep :=
  [.ttyInitialize, .gdtInitialize, .idtInitialize, .memoryManagerInitialize, .newScheduler,
    .processingInitialize, .interruptsInitialize, .initializeKeyboard, .timerStart]

structure Boot where
  handlers : Handlers
  pagingEnabled : Bool
  /-- the calls of `kernel_main` that are still to come -/
  remaining : List BootStep

def bootStart : Boot := ⟨fun _ => none, false, kernelMain⟩

/-- What a call does to the table and to paging. -/
def BootStep.run (b : Boot) : BootStep → Boot
  | .memoryManagerInitialize =>
    { b with handlers := setHandler 14 .pageFaultHandler b.handlers, pagingEnabled := true }
  | .interruptsInitialize => { b with handlers := initializeHandlers b.handlers }
  | .initializeKeyboard => { b with handlers := setHandler 33 .keyboardHandler b.handlers }
  | .timerStart => { b with handlers := setHandler 32 .tickHandler b.handlers }
  | _ => b

inductive BootEvent where
  | call (step : BootStep)
  /-- an interrupt, and the handler that it is dispatched to -/
  | interrupt (intNo : Nat) (handler : Option Handler)
  deriving DecidableEq, Repr

/-- No handler changes the table. -/
inductive BootRun : Boot → BootEvent → Boot → Prop
  | call {b : Boot} {step : BootStep} {rest : List BootStep} (hNext : b.remaining = step :: rest) :
      BootRun b (.call step) (step.run { b with remaining := rest })
  | interrupt {b : Boot} (intNo : Nat) :
      BootRun b (.interrupt intNo (goToInterrupt b.handlers intNo)) b

/-! ## The page fault handler -/

/-- The state after the first `n` calls. -/
def bootAfter : Nat → Boot
  | 0 => bootStart
  | n + 1 =>
    match (bootAfter n).remaining with
    | [] => bootAfter n
    | step :: rest => step.run { bootAfter n with remaining := rest }

/-- The calls made so far lead to the state of their number, whatever interrupts came between. -/
def At (es : List BootEvent) (b : Boot) (n : Fin 10) : Prop :=
  b = bootAfter n ∧ ∀ step, .call step ∈ es ↔ step ∈ kernelMain.take n

variable {b b' : Boot} {e : BootEvent} {es : List BootEvent}

theorem bootAfter_next : ∀ n : Fin 10, ∀ step ∈ (bootAfter n).remaining.head?,
    ∃ m : Fin 10, (m : Nat) = n + 1 ∧
      ∀ s, s ∈ kernelMain.take m ↔ s ∈ kernelMain.take n ∨ s = step := by
  have hTake : ∀ n : Fin 10, ∀ step ∈ (bootAfter n).remaining.head?,
      n.val + 1 < 10 ∧ kernelMain.take (n + 1) = kernelMain.take n ++ [step] := by
    decide
  intro n step hStep
  obtain ⟨hLt, hNext⟩ := hTake n step hStep
  refine ⟨⟨n + 1, hLt⟩, rfl, fun s => ?_⟩
  rw [hNext, List.mem_append, List.mem_singleton]

theorem at_step {n : Fin 10} (h : At es b n) (hStep : BootRun b e b') :
    ∃ m, At (es ++ [e]) b' m := by
  obtain ⟨rfl, hCalls⟩ := h
  cases hStep with
  | @call step rest hNext =>
    obtain ⟨m, hm, hTake⟩ := bootAfter_next n step (by rw [hNext]; rfl)
    refine ⟨m, ?_, fun s => ?_⟩
    · rw [hm, bootAfter, hNext]
    · rw [hTake, List.mem_append, hCalls, List.mem_singleton]
      exact or_congr_right ⟨fun h => BootEvent.call.inj h, fun h => congrArg _ h⟩
  | interrupt intNo =>
    refine ⟨n, rfl, fun s => ?_⟩
    rw [← hCalls, List.mem_append]
    exact ⟨fun h => h.resolve_right fun hMem => (nomatch List.mem_singleton.mp hMem), Or.inl⟩

theorem at_run (hRun : Run BootRun bootStart es b) : ∃ n, At es b n := by
  induction hRun with
  | refl => exact ⟨0, rfl, fun step => ⟨fun h => (nomatch h), fun h => (nomatch h)⟩⟩
  | tail _ hLast ih =>
    obtain ⟨n, hAt⟩ := ih
    exact at_step hAt hLast

/-- Once paging is on, page faults are dispatched to their handler if and only if
`Interrupts::Initialize` has not been called yet. -/
theorem pageFault_installed_iff (hRun : Run BootRun bootStart es b)
    (hPaging : .call .memoryManagerInitialize ∈ es) :
    (b.handlers 14 = some .pageFaultHandler ∧
      goToInterrupt b.handlers 14 = some .pageFaultHandler) ↔
        .call .interruptsInitialize ∉ es := by
  have hEach : ∀ n : Fin 10, .memoryManagerInitialize ∈ kernelMain.take n →
      (((bootAfter n).handlers 14 = some .pageFaultHandler ∧
        goToInterrupt (bootAfter n).handlers 14 = some .pageFaultHandler) ↔
          .interruptsInitialize ∉ kernelMain.take n) := by
    decide
  obtain ⟨n, rfl, hCalls⟩ := at_run hRun
  rw [hCalls] at hPaging
  rw [hCalls]
  exact hEach n hPaging

/-- Make the next call, if it is the one that the event names. -/
def makeCall (b : Boot) : BootEvent → Option Boot
  | .call step =>
    match b.remaining with
    | [] => none
    | next :: rest => if next = step then some (step.run { b with remaining := rest }) else none
  | .interrupt intNo handler => if handler = goToInterrupt b.handlers intNo then some b else none

theorem bootRun_of_makeCall (h : makeCall b e = some b') : BootRun b e b' := by
  cases e with
  | call step =>
    rw [makeCall] at h
    split at h
    · cases h
    · rename_i next rest hNext
      split at h
      · rename_i hSame
        cases h
        exact .call (hSame ▸ hNext)
      · cases h
  | interrupt intNo handler =>
    rw [makeCall] at h
    split at h
    · rename_i hHandler
      cases h
      rw [hHandler]
      exact .interrupt intNo
    · cases h

theorem pageFault_installed_boot : ∃ b,
    Run BootRun bootStart ((kernelMain.take 6).map .call) b ∧
    goToInterrupt b.handlers 14 = some .pageFaultHandler := by
  have hSome : (((kernelMain.take 6).map .call).foldlM makeCall bootStart).isSome := by
    decide +kernel
  obtain ⟨b, hb⟩ := Option.isSome_iff_exists.mp hSome
  have hRun := Run.of_foldlM (fun _ _ _ => bootRun_of_makeCall) hb
  exact ⟨b, hRun, ((pageFault_installed_iff hRun (by decide)).mpr (by decide)).2⟩

/-- At the end of `kernel_main` a page fault is only logged. -/
theorem not_pageFault_installed : ∃ b,
    Run BootRun bootStart (kernelMain.map .call ++ [.interrupt 14 none]) b ∧
    b.pagingEnabled = true ∧ b.handlers 14 ≠ some .pageFaultHandler := by
  have hEnd : ((kernelMain.map BootEvent.call ++ [BootEvent.interrupt 14 none]).foldlM makeCall
      bootStart).map (fun b => (b.pagingEnabled, b.handlers 14)) = some (true, none) := by
    decide +kernel
  obtain ⟨b, hb, hState⟩ := Option.map_eq_some_iff.mp hEnd
  obtain ⟨hPaging, hHandler⟩ := Prod.mk.inj hState
  refine ⟨b, Run.of_foldlM (fun _ _ _ => bootRun_of_makeCall) hb, hPaging, ?_⟩
  rw [hHandler]
  decide

end Juos.Interrupts
