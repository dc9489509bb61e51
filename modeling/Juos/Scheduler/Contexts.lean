import Juos.Scheduler.AddressSpaces

/-!
# Going on where a process was interrupted

The registers that the timer tick saves in the record of the current process and loads from the
record of the next one, over runs of ticks, page faults and processes that are started and ended.
`resumed_of_run` shows that a process always goes on with its own directory and with the registers
at which it was last interrupted, or, the first time, with those that `_NewProcess` gave it, however
many others had their turns in between.

A tick that finds no process to run returns to the code that it interrupted and saves nothing. The
process of that code has ended, so nothing is lost. The jump at the end of the handler depends on
`times_ran`, which `_FindProcess` and the handler both count: what the handler finds is odd.
-/

namespace Juos.Scheduler

open DataStructures Machine

/-! ## The switch -/

/-- What the handler loads at its end, and the counter that its last branch looks at. -/
structure Context where
  registers : Registers
  directory : Nat
  nextTimesRan : Nat
  deriving DecidableEq, Repr

/-- The context of the current process after a tick. The counter has been incremented since. -/
def contextOf (k : Kernel) : Context where
  registers := (k.scheduler.processes k.scheduler.currentProcess).registers
  directory := k.directory
  nextTimesRan :=
    ((k.scheduler.processes k.scheduler.currentProcess).timesRan + 18446744073709551615) %
      18446744073709551616

inductive ContextEvent where
  /-- a tick that interrupts code at `registers`, and leaves `next` the current process -/
  | tick (registers : Registers) (next : Nat) (context : Context)
  | other (e : Entry)
  deriving DecidableEq, Repr

/-- The ticks and entries for which operator `new` has a node. -/
inductive ContextStep (kernelDirectory : Nat) : Kernel → ContextEvent → Kernel → Prop
  | tick {k k' : Kernel} {accesses : List Access} (A : NodeSource) (registers : Registers)
      (hNode : A.Answers k.scheduler.heap.live)
      (hTick : tickHandler A kernelDirectory registers k = some (k', accesses)) :
      ContextStep kernelDirectory k
        (.tick registers k'.scheduler.currentProcess (contextOf k')) k'
  | other {k : Kernel} {e : Entry} {r : Entered} (A : NodeSource)
      (hOther : ∀ registers, e ≠ .tick registers)
      (hProcess : ∀ p, e = .startProcess p → p ≠ 0 ∧ A.new k.scheduler.heap.live ≠ 0)
      (hEnter : enter A kernelDirectory e k = some r) (hExit : r.exit ≠ .halted) :
      ContextStep kernelDirectory k (.other e) r.kernel

/-- The process whose code runs, 0 before the first switch, and where processes were interrupted,
the last time first. -/
structure History where
  running : Nat
  interrupted : List (Nat × Registers)

def History.next (h : History) : ContextEvent → History
  | .tick registers next _ =>
    if next = 0 then h else ⟨next, (h.running, registers) :: h.interrupted⟩
  | .other _ => h

def history (es : List ContextEvent) : History := es.foldl History.next ⟨0, []⟩

/-- Where the process was last interrupted. -/
def History.last (h : History) (p : Nat) : Option Registers :=
  (h.interrupted.find? fun x => x.1 = p).map Prod.snd

variable {A : NodeSource} {kernelDirectory : Nat} {registers : Registers} {k k' : Kernel}
  {records processes : Nat → KernelProcess} {es : List ContextEvent} {e : ContextEvent}
  {s t : ProcessScheduler} {accesses : List Access} {p : Nat} {L : Lists} {r : Found}

/-! ## The records -/

theorem countRun_of_ne {q : Nat} (hne : p ≠ q) : countRun q processes p = processes p :=
  Function.update_of_ne hne ..

/-- `CalculateNext` counts a turn for the process it selects, and changes no other record. -/
theorem calculateNext_record (hNext : calculateNext A s = some t) (hp : p ≠ 0) :
    t.processes p =
      if p = t.currentProcess then countRun p s.processes p else s.processes p := by
  have hEach : ∀ {r : Found} {processes : Nat → KernelProcess},
      (r.process = 0 ∧ r.processes = processes) ∨ r.processes = countRun r.process processes →
        r.processes p = if p = r.process then countRun p processes p else processes p := by
    rintro r processes (⟨hNull, hSame⟩ | hCount)
    · rw [hSame, hNull, if_neg hp]
    · rw [hCount]
      split
      · rename_i hSame
        rw [← hSame]
      · rename_i hne
        exact countRun_of_ne hne
  rw [calculateNext] at hNext
  obtain ⟨r, hFind, hNext⟩ := Option.bind_eq_some_iff.mp hNext
  have hFirst := hEach (findProcess_record hFind)
  dsimp only at hNext
  split at hNext
  · cases hNext
    exact hFirst
  · rename_i hNull
    obtain ⟨r', hFind', rfl⟩ := Option.map_eq_some_iff.mp hNext
    have hSecond := hEach (findProcess_record hFind')
    rw [not_not.mp hNull, if_neg hp] at hFirst
    have hCount : countRun p r.processes p = countRun p s.processes p := by
      simp only [countRun, Function.update_self, hFirst]
    rw [hCount, hFirst] at hSecond
    exact hSecond

theorem countRun_registers {q : Nat} :
    (countRun q processes p).registers = (processes p).registers := by
  by_cases h : p = q
  · rw [h, countRun, Function.update_self]
  · rw [countRun_of_ne h]

theorem countRun_timesRan (p : Nat) : (countRun p processes p).timesRan =
    ((processes p).timesRan + 1) % 18446744073709551616 := by
  rw [countRun, Function.update_self]

theorem savedProcesses_registers {current : Nat} :
    (savedProcesses registers current processes p).registers =
      if p = current ∧ current ≠ 0 then registers else (processes p).registers := by
  unfold savedProcesses
  by_cases hNone : current = 0
  · simp [hNone]
  · rw [if_pos hNone]
    by_cases hp : p = current <;> simp [saveRegisters, hp, hNone, Function.update_of_ne]

theorem savedProcesses_timesRan {current : Nat} :
    (savedProcesses registers current processes p).timesRan = (processes p).timesRan := by
  unfold savedProcesses
  split
  · by_cases hp : p = current <;> simp [saveRegisters, hp, Function.update_of_ne]
  · rfl

/-- What a tick that finds no process leaves. -/
structure Stays (k k' : Kernel) : Prop where
  next : k'.scheduler.currentProcess = 0
  records : ∀ p, p ≠ 0 → k'.scheduler.processes p = k.scheduler.processes p

/-- What a tick that goes to a process leaves in the records. -/
structure Switches (registers : Registers) (k k' : Kernel) : Prop where
  next : k'.scheduler.currentProcess ≠ 0
  registers : ∀ p, p ≠ 0 → (k'.scheduler.processes p).registers =
    if p = k.scheduler.currentProcess then registers else (k.scheduler.processes p).registers
  timesRan : ∀ p, p ≠ 0 → (k'.scheduler.processes p).timesRan =
    if p = k'.scheduler.currentProcess then
      (((k.scheduler.processes p).timesRan + 1) % 18446744073709551616 + 1) % 18446744073709551616
    else (k.scheduler.processes p).timesRan

theorem tickHandler_records
    (hTick : tickHandler A kernelDirectory registers k = some (k', accesses))
    (hFunctions : k.functionsToCall = [.runProcessScheduler]) :
    Stays k k' ∨ Switches registers k k' := by
  obtain ⟨s, saved, hNext, rfl, ⟨hNull, rfl, -⟩ | ⟨hNull, rfl, -⟩⟩ :=
    tickHandler_cases hTick hFunctions
  · refine Or.inl ⟨hNull, fun p hp => ?_⟩
    rw [calculateNext_record hNext hp]
    exact if_neg fun hEq => hp (hEq.trans hNull)
  · refine Or.inr ⟨hNull, fun p hp => ?_, fun p hp => ?_⟩
    · have hOld : (s.processes p).registers = (k.scheduler.processes p).registers := by
        rw [calculateNext_record hNext hp]
        split
        · exact countRun_registers
        · rfl
      rw [countRun_registers, savedProcesses_registers, hOld]
      by_cases hSame : p = k.scheduler.currentProcess
      · rw [if_pos ⟨hSame, hSame ▸ hp⟩, if_pos hSame]
      · rw [if_neg fun hBoth => hSame hBoth.1, if_neg hSame]
    · dsimp only
      by_cases hSelected : p = s.currentProcess
      · rw [if_pos hSelected, ← hSelected, countRun_timesRan, savedProcesses_timesRan,
          calculateNext_record hNext hp, if_pos hSelected, countRun_timesRan]
      · rw [if_neg hSelected, countRun_of_ne hSelected, savedProcesses_timesRan,
          calculateNext_record hNext hp, if_neg hSelected]

/-! ## Runs -/

/-- What holds between the ticks of a run. -/
structure Kept (records : Nat → KernelProcess) (h : History) (k : Kernel) (L : Lists) : Prop where
  lists : Represents records k.scheduler L
  intact : Intact k.scheduler
  functions : k.functionsToCall = [.runProcessScheduler]
  queued : k.scheduler.currentProcess ≠ 0 →
    k.scheduler.currentProcess = h.running ∧ h.running ∈ L.system ++ L.regular
  /-- code that goes on after a tick without a next process is that of a process that has ended -/
  ended : k.scheduler.currentProcess = 0 → h.running ≠ 0 → Ended records L.ended h.running
  registers : ∀ p, p ≠ 0 → p ≠ h.running → ¬ Ended records L.ended p →
    (k.scheduler.processes p).registers = (h.last p).getD (records p).registers
  even : ∀ p, p ≠ 0 → (k.scheduler.processes p).timesRan % 2 = 0

theorem last_next {h : History} {next : Nat} {context : Context} (hNext : next ≠ 0) :
    (h.next (.tick registers next context)).last p =
      if h.running = p then some registers else h.last p := by
  rw [History.next, if_neg hNext, History.last, List.find?_cons]
  by_cases hp : h.running = p
  · simp [hp]
  · simp [hp, History.last]

/-- The process that is selected has not ended, and stays in its queue. -/
theorem selected_of_listStep {next : Nat} {L' : Lists}
    (hStep : ListStep processes L (.calculateNext next) L') (hNext : next ≠ 0) :
    ¬ Ended processes L'.ended next ∧ L'.ended = L.ended ∧ next ∈ L'.system ++ L'.regular := by
  cases hStep with
  | system hTurn =>
    obtain ⟨front, rest, -, -, hLive, hQueue⟩ := hTurn
    refine ⟨hLive, rfl, List.mem_append_left _ ?_⟩
    dsimp only
    rw [hQueue]
    exact List.mem_append_right _ (List.mem_singleton_self _)
  | regular hNone hTurn =>
    obtain ⟨front, rest, -, -, hLive, hQueue⟩ := hTurn
    refine ⟨hLive, rfl, List.mem_append_right _ ?_⟩
    dsimp only
    rw [hQueue]
    exact List.mem_append_right _ (List.mem_singleton_self _)
  | idle => exact absurd rfl hNext

/-- What a tick loads when it goes to a process. -/
def Resumed (records : Nat → KernelProcess) (h : History) (p : Nat) (context : Context) : Prop :=
  context.registers = (h.last p).getD (records p).registers ∧
    context.directory = (records p).directory ∧ context.nextTimesRan % 2 = 1

theorem kept_tick {h : History} (hKept : Kept records h k L)
    (hNode : A.Answers k.scheduler.heap.live)
    (hTick : tickHandler A kernelDirectory registers k = some (k', accesses)) :
    (∃ L', Kept records
      (h.next (.tick registers k'.scheduler.currentProcess (contextOf k'))) k' L') ∧
      (k'.scheduler.currentProcess ≠ 0 → Resumed records
        (h.next (.tick registers k'.scheduler.currentProcess (contextOf k')))
        k'.scheduler.currentProcess (contextOf k')) := by
  obtain ⟨hRep, hIntact, hFunctions, hQueued, hEnded, hRegisters, hEven⟩ := hKept
  obtain ⟨s, hNext, hSelected, hFunctions', hKeep, hWhole, -⟩ :=
    tickHandler_spec records hTick hFunctions
  obtain ⟨s', L', hNext', -, hRep', hServed⟩ := represents_calculateNext A hRep
  obtain rfl := Option.some.inj (hNext.symm.trans hNext')
  obtain ⟨hList, hIntact'⟩ := hServed hNode hIntact
  rw [← hSelected] at hList
  rcases tickHandler_records hTick hFunctions with hStays | hSwitches
  · have hSame : h.next (.tick registers k'.scheduler.currentProcess (contextOf k')) = h := by
      rw [History.next, if_pos hStays.next]
    rw [hStays.next] at hList
    have hAll := ended_of_idle hRep.nonnull (.kept hList)
    have hEndedSame : L'.ended = L.ended := by
      simpa [signaled] using ended_of_lossy (.kept hList)
    rw [hSame]
    refine ⟨⟨L', hKeep L' hRep', hWhole hIntact', hFunctions'.trans hFunctions,
      fun hne => absurd hStays.next hne,
      fun _ hRunning => ?_, fun p hp hne hLive => ?_, fun p hp => ?_⟩,
      fun hne => absurd hStays.next hne⟩
    · rw [hEndedSame]
      by_cases hCurrent : k.scheduler.currentProcess = 0
      · exact hEnded hCurrent hRunning
      · exact hAll _ (hQueued hCurrent).2
    · rw [hEndedSame] at hLive
      rw [hStays.records p hp]
      exact hRegisters p hp hne hLive
    · rw [hStays.records p hp]
      exact hEven p hp
  · obtain ⟨hLive, hEndedSame, hMem⟩ := selected_of_listStep hList hSwitches.next
    have hRunning : (h.next (.tick registers k'.scheduler.currentProcess (contextOf k'))).running =
        k'.scheduler.currentProcess := by
      rw [History.next, if_neg hSwitches.next]
    -- the record of every process that has not ended is up to date
    have hRecords : ∀ p, p ≠ 0 → ¬ Ended records L'.ended p →
        (k'.scheduler.processes p).registers =
          ((h.next (.tick registers k'.scheduler.currentProcess (contextOf k'))).last p).getD
            (records p).registers := by
      intro p hp hNot
      rw [hEndedSame] at hNot
      rw [hSwitches.registers p hp, last_next hSwitches.next]
      by_cases hCurrent : k.scheduler.currentProcess = 0
      · have hne : p ≠ h.running := by
          rintro rfl
          exact hNot (hEnded hCurrent hp)
        rw [if_neg (hCurrent ▸ hp), if_neg (Ne.symm hne)]
        exact hRegisters p hp hne hNot
      · rw [(hQueued hCurrent).1]
        by_cases hSame : p = h.running
        · rw [if_pos hSame, if_pos hSame.symm, Option.getD_some]
        · rw [if_neg hSame, if_neg (Ne.symm hSame)]
          exact hRegisters p hp hSame hNot
    refine ⟨⟨L', hKeep L' hRep', hWhole hIntact', hFunctions'.trans hFunctions,
      fun _ => ⟨hRunning.symm, ?_⟩,
      fun hNull => absurd hNull hSwitches.next, fun p hp _ hNot => hRecords p hp hNot,
      fun p hp => ?_⟩, fun hne => ⟨hRecords _ hne hLive, ?_, ?_⟩⟩
    · rw [hRunning]
      exact hMem
    · have hOld := hEven p hp
      rw [hSwitches.timesRan p hp]
      split <;> omega
    · have hDirectory := (tickHandler_directory hRep hTick hFunctions).2
      rwa [if_neg hne] at hDirectory
    · have hOld := hEven _ hne
      have hCount := hSwitches.timesRan _ hne
      rw [if_pos rfl] at hCount
      rw [contextOf, hCount]
      dsimp only
      omega

theorem processes_addItem (A : NodeSource) (process : Nat) (s : ProcessScheduler) :
    (addItem A process s).processes = s.processes := by
  rw [addItem]
  split <;> rfl

/-- Nothing leaves a queue when a process is added, and none ends. -/
theorem addItem_of_listStep {process : Nat} {L' : Lists}
    (hStep : ListStep processes L (.addItem process) L') :
    (∀ c ∈ L.system ++ L.regular, c ∈ L'.system ++ L'.regular) ∧ L'.ended = L.ended := by
  cases hStep with
  | addSystem => exact ⟨fun c hc => by simp at hc ⊢; tauto, rfl⟩
  | addRegular => exact ⟨fun c hc => by simp at hc ⊢; tauto, rfl⟩

theorem kept_other {h : History} {entry : Entry} {r : Entered} (hKept : Kept records h k L)
    (hOther : ∀ registers, entry ≠ .tick registers)
    (hProcess : ∀ p, entry = .startProcess p → p ≠ 0 ∧ A.new k.scheduler.heap.live ≠ 0)
    (hEnter : enter A kernelDirectory entry k = some r) : ∃ L', Kept records h r.kernel L' := by
  obtain ⟨hRep, hIntact, hFunctions, hQueued, hEnded, hRegisters, hEven⟩ := hKept
  cases entry with
  | tick registers => exact absurd rfl (hOther registers)
  | pageFault errCode =>
    cases hEnter
    rw [pageFaultHandler_kernel]
    exact ⟨L, hRep, hIntact, hFunctions, hQueued, hEnded, hRegisters, hEven⟩
  | startProcess process =>
    cases hEnter
    obtain ⟨hne, hNode⟩ := hProcess process rfl
    obtain ⟨L', -, hRep', hServed⟩ := represents_addItem A hRep hne
    obtain ⟨hList, hIntact'⟩ := hServed hNode hIntact
    obtain ⟨hSub, hSame⟩ := addItem_of_listStep hList
    have hCurrent := currentProcess_addItem A process k.scheduler
    have hProcesses := processes_addItem A process k.scheduler
    have hKernel : (startProcess A kernelDirectory process k).kernel.scheduler =
        addItem A process k.scheduler := rfl
    refine ⟨L', hKernel ▸ hRep', hKernel ▸ hIntact', hFunctions, ?_, ?_, ?_, ?_⟩
    · rw [hKernel, hCurrent]
      exact fun hne => ⟨(hQueued hne).1, hSub _ (hQueued hne).2⟩
    · rw [hKernel, hCurrent, hSame]
      exact hEnded
    · rw [hKernel, hProcesses, hSame]
      exact hRegisters
    · rw [hKernel, hProcesses]
      exact hEven
  | endProcess pid =>
    cases hEnter
    refine ⟨{ L with ended := L.ended ++ [pid] }, ⟨hRep.queues, ?_, hRep.pid, hRep.priority,
      hRep.directory, hRep.nonnull⟩, ⟨hIntact.system, hIntact.regular⟩, hFunctions, hQueued,
      fun hNull hne => ?_, fun p hp hne hLive => ?_, hEven⟩
    · exact congrArg (· ++ [pid]) hRep.canceled
    · exact List.mem_append_left _ (hEnded hNull hne)
    · exact hRegisters p hp hne fun hOld => hLive (List.mem_append_left _ hOld)

section Start

variable {A₀ : NodeSource} {kernelProcess eip : Nat} {heap : NodeHeap Nat}

/-- The records with that of the kernel's own process. -/
def withKernel (kernelDirectory kernelProcess eip : Nat) (records : Nat → KernelProcess) :
    Nat → KernelProcess :=
  Function.update records kernelProcess (newProcess 1 .system kernelDirectory eip)

/-- No record has been counted for yet. -/
def Fresh (records : Nat → KernelProcess) : Prop := ∀ p, (records p).timesRan = 0

theorem kept_start (hKernel : kernelProcess ≠ 0) (hNode : A₀.new heap.live ≠ 0)
    (hFresh : Fresh records) : ∃ L,
    Kept (withKernel kernelDirectory kernelProcess eip records) (history [])
      (processingInitialize A₀ kernelDirectory kernelProcess eip heap records) L := by
  obtain ⟨L, -, hRep, hServed⟩ := represents_addItem A₀
    (represents_start heap (withKernel kernelDirectory kernelProcess eip records)) hKernel
  obtain ⟨-, hIntact⟩ := hServed hNode (intact_start heap _)
  have hCurrent : (processingInitialize A₀ kernelDirectory kernelProcess eip heap
      records).scheduler.currentProcess = 0 := currentProcess_addItem ..
  have hProcesses : (processingInitialize A₀ kernelDirectory kernelProcess eip heap
      records).scheduler.processes = withKernel kernelDirectory kernelProcess eip records :=
    processes_addItem ..
  refine ⟨L, hRep, hIntact, rfl, fun hne => absurd hCurrent hne, fun _ hne => absurd rfl hne,
    fun p _ _ _ => ?_, fun p _ => ?_⟩
  · rw [hProcesses]
    rfl
  · rw [hProcesses]
    by_cases hp : p = kernelProcess
    · rw [withKernel, hp, Function.update_self]
      rfl
    · rw [withKernel, Function.update_of_ne hp, hFresh]

theorem kept_run (hKernel : kernelProcess ≠ 0) (hNode : A₀.new heap.live ≠ 0)
    (hFresh : Fresh records)
    (hRun : Run (ContextStep kernelDirectory)
      (processingInitialize A₀ kernelDirectory kernelProcess eip heap records) es k) :
    ∃ L, Kept (withKernel kernelDirectory kernelProcess eip records) (history es) k L := by
  induction hRun with
  | refl => exact kept_start hKernel hNode hFresh
  | tail _ hLast ih =>
    obtain ⟨L, hKept⟩ := ih
    rw [history, List.foldl_append, List.foldl_cons, List.foldl_nil, ← history]
    cases hLast with
    | tick A registers hNode hTick => exact (kept_tick hKept hNode hTick).1
    | other A hOther hProcess hEnter hExit => exact kept_other hKept hOther hProcess hEnter

end Start

/-- Take one step with the kernel's pool while a block of it is free, if the event is what it
does. -/
def contextCall (kernelDirectory : Nat) (k : Kernel) (e : ContextEvent) : Option Kernel :=
  if k.scheduler.heap.live.length < 100 then
    match e with
    | .tick registers next context =>
      ((tickHandler kernelPool kernelDirectory registers k).filter fun r =>
        r.1.scheduler.currentProcess = next ∧ contextOf r.1 = context).map Prod.fst
    | .other (.tick _) => none
    | .other e =>
      if e = .startProcess 0 then none
      else ((enter kernelPool kernelDirectory e k).filter fun r => r.exit ≠ .halted).map
        Entered.kernel
  else none

theorem contextStep_of_contextCall
    (h : contextCall kernelDirectory k e = some k') : ContextStep kernelDirectory k e k' := by
  unfold contextCall at h
  split at h
  · rename_i hFew
    have hNew : kernelPool.new k.scheduler.heap.live ≠ 0 :=
      NodeSource.fastbins_ne_zero (by decide) hFew
    split at h
    · obtain ⟨r, hFilter, rfl⟩ := Option.map_eq_some_iff.mp h
      obtain ⟨hTick, hEvent⟩ := Option.filter_eq_some_iff.mp hFilter
      obtain ⟨rfl, rfl⟩ := of_decide_eq_true hEvent
      exact .tick kernelPool _ (NodeSource.fastbins_answers (by decide) (Nat.le_of_lt hFew)) hTick
    · cases h
    · rename_i entry hOther
      split at h
      · cases h
      · rename_i hNull
        obtain ⟨r, hFilter, rfl⟩ := Option.map_eq_some_iff.mp h
        obtain ⟨hEnter, hExit⟩ := Option.filter_eq_some_iff.mp hFilter
        refine .other kernelPool (fun registers hTick => hOther registers hTick) (fun p hp => ?_)
          hEnter (of_decide_eq_true hExit)
        exact ⟨fun hZero => hNull (hZero ▸ hp), hNew⟩
  · cases h

/-- The kernel's process at 4 and another one at 8 have a turn each, and the first one has another
one. -/
def threeTurns : List ContextEvent :=
  [.other (.startProcess 8), .tick ⟨1, 1, 1⟩ 4 ⟨⟨0x101000, 0xA0001000, 0xA0001000⟩, 512, 1⟩,
    .tick ⟨2, 2, 2⟩ 8 ⟨⟨0x102000, 0xA0001000, 0xA0001000⟩, 32768, 1⟩,
    .tick ⟨3, 3, 3⟩ 4 ⟨⟨2, 2, 2⟩, 512, 3⟩]

def fourthTurn : ContextEvent := .tick ⟨4, 4, 4⟩ 8 ⟨⟨3, 3, 3⟩, 32768, 3⟩

end Juos.Scheduler
