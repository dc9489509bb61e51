import Juos.Scheduler.RoundRobin

/-!
# The timer tick

`Timer::__tick_handler` with the variables it reads: the scheduler, the callbacks of the timer, the
cached pid and the loaded page directory. Beside the next state it returns its accesses: which
directory it loads, and when it uses the scheduler or the record of a process on the kernel's
heap.

A tick that finds no next process restores the directory of the process that was the current one
before the callbacks. `tick_nonnull_iff` says when there was one, as long as no process is lost to
a null node: some process has not ended yet, or had not when the last tick came.
-/

namespace Juos.Scheduler

open DataStructures Machine

/-! ## The handler -/

/-- What a callback of the timer does to the scheduler. -/
inductive CallableFunc where
  | runProcessScheduler
  deriving DecidableEq, Repr

def CallableFunc.run (A : NodeSource) (s : ProcessScheduler) (func : CallableFunc) :
    Option ProcessScheduler :=
  match func with
  | .runProcessScheduler => calculateNext A s

/-- The variables of the kernel that the entry points of this directory work on. -/
structure Kernel where
  scheduler : ProcessScheduler
  /-- `_scheduler` is not null -/
  hasScheduler : Bool
  functionsToCall : List CallableFunc
  /-- `_current_process_cached_info.pid` -/
  cachedPid : Nat
  /-- the directory in cr3 -/
  directory : Nat

inductive Access where
  /-- a directory is loaded into cr3 -/
  | load (directory : Nat)
  /-- the scheduler, its queues or the processes in them are used -/
  | scheduler
  /-- the record of one process is used -/
  | process (p : Nat)
  deriving DecidableEq, Repr

/-- The registers of the interrupted code, stored where its process keeps them. -/
def saveRegisters (registers : Registers) (p : Nat) (processes : Nat → KernelProcess) :
    Nat → KernelProcess :=
  Function.update processes p { processes p with registers := registers }

/-- `Timer::__tick_handler`; `registers` are those of the interrupted code. `get_ip` returns the
magic number only to a process that is resumed, and the tick that suspended it returns there. -/
def tickHandler (A : NodeSource) (kernelDirectory : Nat) (registers : Registers) (k : Kernel) :
    Option (Kernel × List Access) :=
  let current := k.scheduler.currentProcess
  (k.functionsToCall.foldlM (CallableFunc.run A) k.scheduler).map fun s =>
    let called := .load kernelDirectory :: k.functionsToCall.map (fun _ => .scheduler)
    let next := s.currentProcess
    if next = 0 then
      let directory := (s.processes current).directory
      ({ k with scheduler := s, directory := directory },
        called ++ [.scheduler, .process current, .load directory])
    else
      let saved := if current ≠ 0 then saveRegisters registers current s.processes else s.processes
      let directory := (saved next).directory
      ({ k with
          scheduler := { s with processes := countRun next saved }
          cachedPid := (saved next).pid
          directory := directory },
        called ++ .scheduler :: (if current ≠ 0 then [.process current] else []) ++
          [.process next, .load directory])

/-! ## Runs -/

inductive TimerEvent where
  | addItem (process : Nat)
  | signalEnd (pid : Nat)
  /-- a tick that leaves `next` the current process, and its accesses -/
  | tick (next : Nat) (accesses : List Access)
  deriving DecidableEq, Repr

/-- The calls and ticks for which operator `new` has a node. -/
inductive TimerStep (kernelDirectory : Nat) : Kernel → TimerEvent → Kernel → Prop
  | addItem {k : Kernel} {process : Nat} (A : NodeSource) (hProcess : process ≠ 0)
      (hNode : A.new k.scheduler.heap.live ≠ 0) :
      TimerStep kernelDirectory k (.addItem process)
        { k with scheduler := addItem A process k.scheduler }
  | signalEnd {k : Kernel} (pid : Nat) :
      TimerStep kernelDirectory k (.signalEnd pid)
        { k with scheduler := signalEnd pid k.scheduler }
  | tick {k k' : Kernel} {accesses : List Access} (A : NodeSource) (registers : Registers)
      (hNode : A.Answers k.scheduler.heap.live)
      (hTick : tickHandler A kernelDirectory registers k = some (k', accesses)) :
      TimerStep kernelDirectory k (.tick k'.scheduler.currentProcess accesses) k'

/-- Make one call with the kernel's pool while a block of it is free, if the event is what it
does. -/
def timerCall (kernelDirectory : Nat) (registers : Registers) (k : Kernel) (e : TimerEvent) :
    Option Kernel :=
  if k.scheduler.heap.live.length < 100 then
    match e with
    | .addItem process =>
      if process = 0 then none
      else some { k with scheduler := addItem kernelPool process k.scheduler }
    | .signalEnd pid => some { k with scheduler := signalEnd pid k.scheduler }
    | .tick next accesses =>
      ((tickHandler kernelPool kernelDirectory registers k).filter fun r =>
        r.1.scheduler.currentProcess = next ∧ r.2 = accesses).map Prod.fst
  else none

theorem timerStep_of_timerCall {kernelDirectory : Nat} {registers : Registers} {k k' : Kernel}
    {e : TimerEvent} (h : timerCall kernelDirectory registers k e = some k') :
    TimerStep kernelDirectory k e k' := by
  unfold timerCall at h
  split at h
  · rename_i hFew
    cases e with
    | addItem process =>
      dsimp only at h
      split at h
      · cases h
      · rename_i hProcess
        cases h
        exact .addItem kernelPool hProcess (NodeSource.fastbins_ne_zero (by decide) hFew)
    | signalEnd pid =>
      cases h
      exact .signalEnd pid
    | tick next accesses =>
      obtain ⟨r, hFilter, rfl⟩ := Option.map_eq_some_iff.mp h
      obtain ⟨hTick, hEvent⟩ := Option.filter_eq_some_iff.mp hFilter
      obtain ⟨rfl, rfl⟩ := of_decide_eq_true hEvent
      exact .tick kernelPool registers
        (NodeSource.fastbins_answers (by decide) (Nat.le_of_lt hFew)) hTick
  · cases h

/-- The timer with the callback that `Processing::Initialize` registers, and no process yet. -/
def timerStart (heap : NodeHeap Nat) (processes : Nat → KernelProcess) (cachedPid directory : Nat) :
    Kernel :=
  ⟨start heap processes, true, [.runProcessScheduler], cachedPid, directory⟩

/-- What a tick is to the scheduler. -/
def schedulerEvent : TimerEvent → SchedulerEvent
  | .addItem process => .addItem process
  | .signalEnd pid => .signalEnd pid
  | .tick next _ => .calculateNext next

/-- Some process that was added has not ended. -/
def Busy (processes : Nat → KernelProcess) (es : List TimerEvent) : Prop :=
  ∃ p ∈ added (es.map schedulerEvent), (processes p).pid ∉ signaled (es.map schedulerEvent)

def TimerEvent.isTick : TimerEvent → Bool
  | .tick _ _ => true
  | _ => false

/-- Some process had not ended when the last tick came. -/
def WasBusy (processes : Nat → KernelProcess) (es : List TimerEvent) : Prop :=
  ∃ pre e post, es = pre ++ e :: post ∧ e.isTick = true ∧ (∀ d ∈ post, d.isTick = false) ∧
    Busy processes pre

variable {A : NodeSource} {kernelDirectory : Nat} {registers : Registers} {k k' : Kernel}
  {processes : Nat → KernelProcess} {es pre post : List TimerEvent} {e : TimerEvent} {L : Lists}
  {s t : ProcessScheduler} {accesses : List Access} {next : Nat} {heap : NodeHeap Nat}
  {cachedPid directory : Nat}

theorem wasBusy_tick (hTick : e.isTick = true) :
    WasBusy processes (es ++ [e]) ↔ Busy processes es := by
  refine ⟨?_, fun hBusy => ⟨es, e, [], rfl, hTick, fun d hd => (nomatch hd), hBusy⟩⟩
  rintro ⟨pre, d, post, hSplit, -, hQuiet, hBusy⟩
  rcases List.eq_nil_or_concat post with rfl | ⟨post, c, rfl⟩
  · obtain ⟨rfl, -⟩ := List.append_inj' hSplit rfl
    exact hBusy
  · rw [List.concat_eq_append, ← List.cons_append, ← List.append_assoc] at hSplit
    obtain ⟨-, hLast⟩ := List.append_inj' hSplit rfl
    obtain rfl := List.head_eq_of_cons_eq hLast
    rw [hQuiet e (by simp)] at hTick
    cases hTick

theorem wasBusy_other (hTick : e.isTick = false) :
    WasBusy processes (es ++ [e]) ↔ WasBusy processes es := by
  constructor
  · rintro ⟨pre, d, post, hSplit, hd, hQuiet, hBusy⟩
    rcases List.eq_nil_or_concat post with rfl | ⟨post, c, rfl⟩
    · obtain ⟨-, hLast⟩ := List.append_inj' hSplit rfl
      obtain rfl := List.head_eq_of_cons_eq hLast
      rw [hd] at hTick
      cases hTick
    · rw [List.concat_eq_append, ← List.cons_append, ← List.append_assoc] at hSplit
      obtain ⟨rfl, -⟩ := List.append_inj' hSplit rfl
      exact ⟨pre, d, post, rfl, hd, fun b hb => hQuiet b (by simp [hb]), hBusy⟩
  · rintro ⟨pre, d, post, rfl, hd, hQuiet, hBusy⟩
    refine ⟨pre, d, post ++ [e], by simp, hd, fun b hb => ?_, hBusy⟩
    rcases List.mem_append.mp hb with hOld | hLast
    · exact hQuiet b hOld
    · exact List.mem_singleton.mp hLast ▸ hTick

/-! ## One tick -/

theorem Represents.of_processes {saved : Nat → KernelProcess} (h : Represents processes s L)
    (hPid : ∀ a, (saved a).pid = (s.processes a).pid)
    (hPriority : ∀ a, (saved a).priority = (s.processes a).priority)
    (hDirectory : ∀ a, (saved a).directory = (s.processes a).directory) :
    Represents processes { s with processes := saved } L :=
  ⟨h.queues, h.canceled, fun a => (hPid a).trans (h.pid a), fun a =>
    (hPriority a).trans (h.priority a), fun a => (hDirectory a).trans (h.directory a), h.nonnull⟩

/-- Registers and counters change, pids, priorities and directories do not. -/
theorem saveRegisters_fields (registers : Registers) (p a : Nat)
    (processes : Nat → KernelProcess) :
    (saveRegisters registers p processes a).pid = (processes a).pid ∧
      (saveRegisters registers p processes a).priority = (processes a).priority ∧
      (saveRegisters registers p processes a).directory = (processes a).directory := by
  by_cases h : a = p <;> simp [saveRegisters, h, Function.update_of_ne]

/-- The records when the registers of the interrupted process are saved, if there is one. -/
def savedProcesses (registers : Registers) (current : Nat) (processes : Nat → KernelProcess) :
    Nat → KernelProcess :=
  if current ≠ 0 then saveRegisters registers current processes else processes

theorem savedProcesses_fields (registers : Registers) (current a : Nat)
    (processes : Nat → KernelProcess) :
    (savedProcesses registers current processes a).pid = (processes a).pid ∧
      (savedProcesses registers current processes a).priority = (processes a).priority ∧
      (savedProcesses registers current processes a).directory = (processes a).directory := by
  unfold savedProcesses
  split
  · exact saveRegisters_fields registers current a processes
  · exact ⟨rfl, rfl, rfl⟩

/-- All that a tick can do: without a next process the directory of the current one is loaded again,
otherwise the next one is made current. -/
theorem tickHandler_cases (hTick : tickHandler A kernelDirectory registers k = some (k', accesses))
    (hFunctions : k.functionsToCall = [.runProcessScheduler]) :
    ∃ s saved, calculateNext A k.scheduler = some s ∧
      saved = savedProcesses registers k.scheduler.currentProcess s.processes ∧
      ((s.currentProcess = 0 ∧
        k' = { k with
          scheduler := s
          directory := (s.processes k.scheduler.currentProcess).directory } ∧
        accesses = [.load kernelDirectory, .scheduler, .scheduler,
          .process k.scheduler.currentProcess,
          .load (s.processes k.scheduler.currentProcess).directory]) ∨
      (s.currentProcess ≠ 0 ∧
        k' = { k with
          scheduler := { s with processes := countRun s.currentProcess saved }
          cachedPid := (saved s.currentProcess).pid
          directory := (saved s.currentProcess).directory } ∧
        accesses = [.load kernelDirectory, .scheduler, .scheduler] ++
          (if k.scheduler.currentProcess ≠ 0 then [.process k.scheduler.currentProcess] else []) ++
          [.process s.currentProcess, .load (saved s.currentProcess).directory])) := by
  rw [tickHandler, hFunctions] at hTick
  obtain ⟨s, hCall, hTick⟩ := Option.map_eq_some_iff.mp hTick
  have hNext : calculateNext A k.scheduler = some s := by
    simpa [CallableFunc.run] using hCall
  refine ⟨s, _, hNext, rfl, ?_⟩
  by_cases hNull : s.currentProcess = 0
  · rw [if_pos hNull] at hTick
    obtain ⟨rfl, rfl⟩ := Prod.mk.inj hTick
    exact Or.inl ⟨hNull, by rw [hFunctions], rfl⟩
  · rw [if_neg hNull] at hTick
    obtain ⟨rfl, rfl⟩ := Prod.mk.inj hTick
    exact Or.inr ⟨hNull, by rw [hFunctions]; rfl, rfl⟩

/-- A tick runs the scheduler once. The record at address zero is used when neither the process
before nor the one after the callbacks exists. -/
theorem tickHandler_spec (processes : Nat → KernelProcess)
    (hTick : tickHandler A kernelDirectory registers k = some (k', accesses))
    (hFunctions : k.functionsToCall = [.runProcessScheduler]) :
    ∃ s, calculateNext A k.scheduler = some s ∧
      k'.scheduler.currentProcess = s.currentProcess ∧
      k'.functionsToCall = k.functionsToCall ∧
      (∀ L, Represents processes s L → Represents processes k'.scheduler L) ∧
      (Intact s → Intact k'.scheduler) ∧
      (.process 0 ∈ accesses ↔ s.currentProcess = 0 ∧ k.scheduler.currentProcess = 0) := by
  obtain ⟨s, saved, hNext, rfl, ⟨hNull, rfl, rfl⟩ | ⟨hNull, rfl, rfl⟩⟩ :=
    tickHandler_cases hTick hFunctions
  · refine ⟨s, hNext, rfl, rfl, fun L h => h, fun h => h, ?_⟩
    simp [hNull, eq_comm]
  · refine ⟨s, hNext, rfl, rfl, fun L h => ?_, fun h => ⟨h.system, h.regular⟩, ?_⟩
    · refine h.of_processes (fun a => ?_) (fun a => ?_) fun a => ?_
      · rw [countRun_pid, (savedProcesses_fields ..).1]
      · rw [countRun_priority, (savedProcesses_fields ..).2.1]
      · rw [countRun_directory, (savedProcesses_fields ..).2.2]
    · have hNull' : 0 ≠ s.currentProcess := Ne.symm hNull
      by_cases hCurrent : k.scheduler.currentProcess = 0
      · simp [hNull, hNull', hCurrent]
      · simp [hNull, hNull', hCurrent, Ne.symm hCurrent]

/-! ## Runs of ticks -/

/-- What holds between the ticks of a run. -/
structure Timed (processes : Nat → KernelProcess) (es : List TimerEvent) (k : Kernel) : Prop where
  lists : ∃ L, Represents processes k.scheduler L ∧ Filed processes (es.map schedulerEvent) L
  intact : Intact k.scheduler
  functions : k.functionsToCall = [.runProcessScheduler]
  current : k.scheduler.currentProcess ≠ 0 ↔ WasBusy processes es

theorem timed_tick (h : Timed processes es k) (hNode : A.Answers k.scheduler.heap.live)
    (hTick : tickHandler A kernelDirectory registers k = some (k', accesses)) :
    Timed processes (es ++ [.tick k'.scheduler.currentProcess accesses]) k' ∧
      (.process 0 ∉ accesses ↔ Busy processes es ∨ WasBusy processes es) := by
  obtain ⟨⟨L, hRep, hFiled⟩, hIntact, hFunctions, hCurrent⟩ := h
  obtain ⟨s, hNext, hSelected, hFunctions', hKeep, hWhole, hNull⟩ :=
    tickHandler_spec processes hTick hFunctions
  obtain ⟨t, L', hNext', hSteps⟩ := represents_calculateNext A hRep
  obtain rfl := Option.some.inj (hNext.symm.trans hNext')
  obtain ⟨hList, hIntact'⟩ := hSteps.served hNode hIntact
  have hBusy : s.currentProcess ≠ 0 ↔ Busy processes es := selected_ne_zero_iff hFiled hList
  refine ⟨⟨⟨L', hKeep L' hSteps.represents, ?_⟩, hWhole hIntact', hFunctions'.trans hFunctions, ?_⟩,
    ?_⟩
  · rw [List.map_append, List.map_singleton, schedulerEvent, hSelected]
    exact filed_step hFiled hList
  · rw [hSelected, hBusy, wasBusy_tick rfl]
  · rw [hNull, ← hBusy, ← hCurrent]
    exact Decidable.not_and_iff_or_not

theorem timed_step (h : Timed processes es k) (hStep : TimerStep kernelDirectory k e k') :
    Timed processes (es ++ [e]) k' := by
  cases hStep with
  | @addItem process A hProcess hNode =>
    obtain ⟨⟨L, hRep, hFiled⟩, hIntact, hFunctions, hCurrent⟩ := h
    obtain ⟨L', hSteps⟩ := represents_addItem A hRep hProcess
    obtain ⟨hList, hIntact'⟩ := hSteps.served hNode hIntact
    refine ⟨⟨L', hSteps.represents, ?_⟩, hIntact', hFunctions, ?_⟩
    · rw [List.map_append]
      exact filed_step hFiled hList
    · rw [wasBusy_other rfl, ← hCurrent, addItem]
      split <;> rfl
  | signalEnd pid =>
    obtain ⟨⟨L, hRep, hFiled⟩, hIntact, hFunctions, hCurrent⟩ := h
    obtain ⟨L', hList, hRep'⟩ := represents_signalEnd hRep pid
    refine ⟨⟨L', hRep', ?_⟩, ⟨hIntact.system, hIntact.regular⟩, hFunctions,
      by rwa [wasBusy_other rfl]⟩
    rw [List.map_append]
    exact filed_step hFiled hList
  | tick A registers hNode hTick => exact (timed_tick h hNode hTick).1

theorem timed_run
    (hRun : Run (TimerStep kernelDirectory) (timerStart heap processes cachedPid directory) es k) :
    Timed processes es k := by
  induction hRun with
  | refl =>
    refine ⟨⟨.empty, represents_start heap processes, filed_empty⟩,
      intact_start heap processes, rfl, fun h => absurd rfl h, ?_⟩
    rintro ⟨pre, e, post, hSplit, -⟩
    simp at hSplit
  | tail _ hLast ih => exact timed_step ih hLast

/-- A run in which operator `new` has a node for each call uses no record at address zero if and
only if at each tick some process has not ended, or had not at the tick before it. -/
theorem tick_nonnull_iff
    (hRun : Run (TimerStep kernelDirectory) (timerStart heap processes cachedPid directory) es k) :
    (∀ next accesses, .tick next accesses ∈ es → .process 0 ∉ accesses) ↔
      ∀ pre next accesses post, es = pre ++ .tick next accesses :: post →
        Busy processes pre ∨ WasBusy processes pre := by
  have hEach : ∀ pre next accesses post, es = pre ++ .tick next accesses :: post →
      (.process 0 ∉ accesses ↔ Busy processes pre ∨ WasBusy processes pre) := by
    rintro pre next accesses post rfl
    rw [List.append_cons] at hRun
    obtain ⟨_, hPrefix, -⟩ := hRun.split
    obtain ⟨_, hPre, hLast⟩ := hPrefix.of_append
    cases hLast with
    | tick A registers hNode hTick => exact (timed_tick (timed_run hPre) hNode hTick).2
  constructor
  · rintro hSafe pre next accesses post rfl
    exact (hEach _ _ _ _ rfl).mp (hSafe next accesses (by simp))
  · intro hBusy next accesses hMem
    obtain ⟨pre, post, hSplit⟩ := List.append_of_mem hMem
    exact (hEach _ _ _ _ hSplit).mpr (hBusy _ _ _ _ hSplit)

theorem exists_timerRun {kernelDirectory : Nat} (registers : Registers)
    (h : (es.foldlM (timerCall kernelDirectory registers) k).isSome = true) :
    ∃ k', Run (TimerStep kernelDirectory) k es k' := by
  obtain ⟨k', hk'⟩ := Option.isSome_iff_exists.mp h
  exact ⟨k', Run.of_foldlM (fun _ _ _ => timerStep_of_timerCall) hk'⟩

/-- The first tick after the end of the process still knows it. -/
theorem tick_nonnull_two : ∃ k es,
    Run (TimerStep 512) (timerStart ⟨fun _ => ⟨0, 0⟩, []⟩ twoProcesses 0 512) es k ∧
    es.map schedulerEvent = [.addItem 4, .calculateNext 4, .signalEnd 4, .calculateNext 0] ∧
    ∀ next accesses, .tick next accesses ∈ es → .process 0 ∉ accesses := by
  obtain ⟨k, hRun⟩ : ∃ k, Run (TimerStep 512)
      (timerStart ⟨fun _ => ⟨0, 0⟩, []⟩ twoProcesses 0 512)
      [.addItem 4, .tick 4 [.load 512, .scheduler, .scheduler, .process 4, .load 0], .signalEnd 4,
        .tick 0 [.load 512, .scheduler, .scheduler, .process 4, .load 0]] k :=
    exists_timerRun ⟨0, 0, 0⟩ (by decide +kernel)
  refine ⟨k, _, hRun, rfl, (tick_nonnull_iff hRun).mpr fun pre next accesses post hSplit => ?_⟩
  rcases pre with - | ⟨a, - | ⟨b, - | ⟨c, - | ⟨d, pre⟩⟩⟩⟩
  · cases hSplit
  · cases hSplit
    exact Or.inl ⟨4, by decide, by decide⟩
  · cases hSplit
  · cases hSplit
    exact Or.inr ⟨[.addItem 4], _, [.signalEnd 4], rfl, rfl, by decide, 4, by decide, by decide⟩
  · simp at hSplit

/-- Two ticks after the only process has ended, the handler reads the record at address zero. -/
theorem not_tick_nonnull : ∃ k es,
    Run (TimerStep 512) (timerStart ⟨fun _ => ⟨0, 0⟩, []⟩ twoProcesses 0 512) es k ∧
    es.map schedulerEvent =
      [.addItem 4, .calculateNext 4, .signalEnd 4, .calculateNext 0, .calculateNext 0] ∧
    ¬ ∀ next accesses, .tick next accesses ∈ es → .process 0 ∉ accesses := by
  obtain ⟨k, hRun⟩ : ∃ k, Run (TimerStep 512)
      (timerStart ⟨fun _ => ⟨0, 0⟩, []⟩ twoProcesses 0 512)
      [.addItem 4, .tick 4 [.load 512, .scheduler, .scheduler, .process 4, .load 0], .signalEnd 4,
        .tick 0 [.load 512, .scheduler, .scheduler, .process 4, .load 0],
        .tick 0 [.load 512, .scheduler, .scheduler, .process 0, .load 0]] k :=
    exists_timerRun ⟨0, 0, 0⟩ (by decide +kernel)
  refine ⟨k, _, hRun, rfl, fun hSafe => ?_⟩
  exact hSafe 0 [.load 512, .scheduler, .scheduler, .process 0, .load 0] (by decide) (by decide)

end Juos.Scheduler
