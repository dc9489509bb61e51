import Juos.Scheduler.Timer

/-!
# Address spaces of the entry points

The scheduler and the records of the processes lie on the kernel's heap, which only the kernel's
directory maps. Four entry points use them: the timer tick, the page fault handler,
`Processing::Start::Process` and `Processing::End::Process`. An entry is `Disciplined` if it uses
them under the kernel's directory only, and leaves the loaded directory as it was when it returns
to the code it interrupted.

`disciplined_iff` gives the exact condition for each entry of each run, `disciplined_of_pids`
removes it for the two that start and end processes while pids are as `_pid_seq` gives them.
-/

namespace Juos.Scheduler

open DataStructures Machine

/-! ## Accesses -/

/-- The directory that is loaded after the accesses. -/
def loaded : Nat → List Access → Nat
  | directory, [] => directory
  | _, .load directory :: rest => loaded directory rest
  | directory, _ :: rest => loaded directory rest

/-- The scheduler and the records are only used while the kernel's directory is loaded. -/
def UnderKernel (kernelDirectory : Nat) : Nat → List Access → Prop
  | _, [] => True
  | _, .load directory :: rest => UnderKernel kernelDirectory directory rest
  | directory, _ :: rest => directory = kernelDirectory ∧ UnderKernel kernelDirectory directory rest

/-! ## Entry points -/

/-- How an entry point ends. -/
inductive Exit where
  /-- it returns to the code it interrupted -/
  | resumed
  /-- it goes on with another process -/
  | switched
  /-- the kernel has panicked -/
  | halted
  deriving DecidableEq, Repr

structure Entered where
  kernel : Kernel
  accesses : List Access
  exit : Exit

/-- `page_fault_handler`, without what `map_region` does to the directory of the process. -/
def pageFaultHandler (errCode : Nat) (k : Kernel) : Entered :=
  -- the source calls the page present when the bit says that it is not
  let present := errCode % 2 = 0
  if present ∧ k.hasScheduler then
    let proc := k.scheduler.currentProcess
    if proc ≠ 0 then ⟨k, [.scheduler, .process proc], .resumed⟩
    else ⟨k, [.scheduler], .halted⟩
  else ⟨k, [], .halted⟩

/-- `Processing::Start::Process`; the record at `process` is as `_NewProcess` leaves it. -/
def startProcess (A : NodeSource) (kernelDirectory process : Nat) (k : Kernel) : Entered :=
  let switch := k.cachedPid ≠ 0
  let currentDirectory := k.directory
  let accesses := (if switch then [.load kernelDirectory] else []) ++
    [.process process, .scheduler] ++ if switch then [.load currentDirectory] else []
  ⟨{ k with scheduler := addItem A process k.scheduler, directory := loaded k.directory accesses },
    accesses, .resumed⟩

/-- `Processing::End::Process`. -/
def endProcess (kernelDirectory pid : Nat) (k : Kernel) : Entered :=
  let switch := k.cachedPid ≠ 1
  let tempDir := k.directory
  let accesses := (if switch then [.load kernelDirectory] else []) ++ [.scheduler] ++
    if switch then [.load tempDir] else []
  ⟨{ k with scheduler := signalEnd pid k.scheduler, directory := loaded k.directory accesses },
    accesses, .resumed⟩

inductive Entry where
  | tick (registers : Registers)
  | pageFault (errCode : Nat)
  | startProcess (process : Nat)
  | endProcess (pid : Nat)
  deriving DecidableEq, Repr

/-- A tick that finds no other process than the current one resumes it. -/
def tickExit (k k' : Kernel) : Exit :=
  if k'.scheduler.currentProcess = 0 ∨ k'.scheduler.currentProcess = k.scheduler.currentProcess
  then .resumed else .switched

def enter (A : NodeSource) (kernelDirectory : Nat) (e : Entry) (k : Kernel) : Option Entered :=
  match e with
  | .tick registers =>
    (tickHandler A kernelDirectory registers k).map fun r => ⟨r.1, r.2, tickExit k r.1⟩
  | .pageFault errCode => some (pageFaultHandler errCode k)
  | .startProcess process => some (startProcess A kernelDirectory process k)
  | .endProcess pid => some (endProcess kernelDirectory pid k)

/-- A record as `_NewProcess` leaves it. -/
def newProcess (pid : Nat) (priority : Priority) (directory eip : Nat) : KernelProcess :=
  ⟨pid, priority, directory, 0, ⟨eip, 0xA0001000, 0xA0001000⟩⟩

/-- `Processing::Initialize`: the kernel's own process is the first one, with the kernel's
directory. -/
def processingInitialize (A : NodeSource) (kernelDirectory kernelProcess eip : Nat)
    (heap : NodeHeap Nat) (processes : Nat → KernelProcess) : Kernel :=
  let processes := Function.update processes kernelProcess
    (newProcess 1 .system kernelDirectory eip)
  ⟨addItem A kernelProcess (start heap processes), true, [.runProcessScheduler], 0, kernelDirectory⟩

/-- The entries that the kernel survives. -/
inductive EntryStep (kernelDirectory : Nat) : Kernel → Entry → Kernel → Prop
  | enter {k : Kernel} {e : Entry} {r : Entered} (A : NodeSource)
      (hProcess : ∀ p, e = .startProcess p → p ≠ 0)
      (hEnter : enter A kernelDirectory e k = some r) (hExit : r.exit ≠ .halted) :
      EntryStep kernelDirectory k e r.kernel

/-! ## The discipline -/

structure Disciplined (kernelDirectory : Nat) (k : Kernel) (r : Entered) : Prop where
  under : UnderKernel kernelDirectory k.directory r.accesses
  restored : r.exit = .resumed → r.kernel.directory = k.directory

/-- Some process that is queued has not ended. -/
def HasNext (k : Kernel) : Prop :=
  ∃ L, Represents k.scheduler.processes k.scheduler L ∧
    ∃ q ∈ L.system ++ L.regular, ¬ Ended k.scheduler.processes L.ended q

/-- The condition of an entry: a tick that finds nothing to run has a current process to go back
to, a page fault on a page that is not present comes under the kernel's directory, and the cached
pid tells `Start` and `End` whether they are in the kernel. -/
def Meets (kernelDirectory : Nat) (k : Kernel) : Entry → Prop
  | .tick _ => k.scheduler.currentProcess ≠ 0 ∨ HasNext k ∨
      (k.scheduler.processes 0).directory = k.directory
  | .pageFault errCode =>
      errCode % 2 = 1 ∨ k.hasScheduler = false ∨ k.directory = kernelDirectory
  | .startProcess _ => k.cachedPid ≠ 0 ∨ k.directory = kernelDirectory
  | .endProcess _ => k.cachedPid ≠ 1 ∨ k.directory = kernelDirectory

variable {A : NodeSource} {kernelDirectory : Nat} {registers : Registers} {k k' : Kernel}
  {e : Entry} {es : List Entry} {r : Entered} {d : Nat} {xs ys : List Access}

theorem underKernel_of_scheduler (h : ∀ x ∈ xs, ∀ b, x ≠ .load b) :
    UnderKernel kernelDirectory kernelDirectory xs := by
  induction xs with
  | nil => trivial
  | cons x xs ih =>
    have hRest := ih fun y hy => h y (List.mem_cons_of_mem _ hy)
    cases x with
    | load b => exact absurd rfl (h _ List.mem_cons_self b)
    | scheduler => exact ⟨rfl, hRest⟩
    | process p => exact ⟨rfl, hRest⟩

/-! ## Each entry point -/

theorem disciplined_pageFault (errCode : Nat) (k : Kernel) :
    Disciplined kernelDirectory k (pageFaultHandler errCode k) ↔
      Meets kernelDirectory k (.pageFault errCode) := by
  have hIff : ∀ exit, ∀ xs : List Access, (∀ x ∈ xs, ∀ b, x ≠ .load b) →
      (Disciplined kernelDirectory k ⟨k, .scheduler :: xs, exit⟩ ↔
        k.directory = kernelDirectory) := by
    intro exit xs hxs
    refine ⟨fun h => h.under.1, fun h => ⟨⟨h, ?_⟩, fun _ => rfl⟩⟩
    rw [h]
    exact underKernel_of_scheduler hxs
  rw [pageFaultHandler, Meets]
  by_cases hPresent : errCode % 2 = 0 ∧ k.hasScheduler
  · simp only [hPresent, if_true, and_self]
    simp only [Nat.zero_ne_one, Bool.true_eq_false, false_or]
    split
    · exact hIff .resumed [.process _] (by simp)
    · exact hIff .halted [] (by simp)
  · rw [if_neg hPresent]
    refine ⟨fun _ => ?_, fun _ => ⟨trivial, fun h => nomatch h⟩⟩
    rcases Nat.mod_two_eq_zero_or_one errCode with hEven | hOdd
    · exact Or.inr (Or.inl (by simpa using fun h => hPresent ⟨hEven, h⟩))
    · exact Or.inl hOdd

theorem disciplined_startProcess (process : Nat) (k : Kernel) :
    Disciplined kernelDirectory k (startProcess A kernelDirectory process k) ↔
      Meets kernelDirectory k (.startProcess process) := by
  by_cases hPid : k.cachedPid = 0
  · have hBack : (startProcess A kernelDirectory process k).kernel.directory = k.directory := by
      simp [startProcess, hPid, loaded]
    refine ⟨fun h => Or.inr ?_, fun h => ⟨?_, fun _ => hBack⟩⟩
    · have hUnder := h.under
      simp only [startProcess, hPid, ne_eq, not_true_eq_false, if_false, List.nil_append,
        List.append_nil] at hUnder
      exact hUnder.1
    · have hKernel : k.directory = kernelDirectory := h.resolve_left fun hne => hne hPid
      simp [startProcess, hPid, UnderKernel, hKernel]
  · refine ⟨fun _ => Or.inl hPid, fun _ => ⟨?_, fun _ => ?_⟩⟩
    · simp [startProcess, hPid, UnderKernel]
    · simp [startProcess, hPid, loaded]

theorem disciplined_endProcess (pid : Nat) (k : Kernel) :
    Disciplined kernelDirectory k (endProcess kernelDirectory pid k) ↔
      Meets kernelDirectory k (.endProcess pid) := by
  by_cases hPid : k.cachedPid = 1
  · have hBack : (endProcess kernelDirectory pid k).kernel.directory = k.directory := by
      simp [endProcess, hPid, loaded]
    refine ⟨fun h => Or.inr ?_, fun h => ⟨?_, fun _ => hBack⟩⟩
    · have hUnder := h.under
      simp only [endProcess, hPid, ne_eq, not_true_eq_false, if_false, List.nil_append,
        List.append_nil] at hUnder
      exact hUnder.1
    · have hKernel : k.directory = kernelDirectory := h.resolve_left fun hne => hne hPid
      simp [endProcess, hPid, UnderKernel, hKernel]
  · refine ⟨fun _ => Or.inl hPid, fun _ => ⟨?_, fun _ => ?_⟩⟩
    · simp [endProcess, hPid, UnderKernel]
    · simp [endProcess, hPid, loaded]

variable {processes : Nat → KernelProcess} {L : Lists} {s : ProcessScheduler}
  {accesses : List Access}

theorem Represents.self (h : Represents processes s L) : Represents s.processes s L :=
  ⟨h.queues, h.canceled, fun _ => rfl, fun _ => rfl, fun _ => rfl, h.nonnull⟩

/-- `CalculateNext` finds a process if and only if one that has not ended is queued. -/
theorem calculateNext_ne_zero_iff (h : Represents processes k.scheduler L)
    (hNext : calculateNext A k.scheduler = some s) : s.currentProcess ≠ 0 ↔ HasNext k := by
  have hStep : ∀ L, Represents k.scheduler.processes k.scheduler L →
      (s.currentProcess ≠ 0 ↔
        ∃ q ∈ L.system ++ L.regular, ¬ Ended k.scheduler.processes L.ended q) := by
    intro L hRep
    obtain ⟨t, L', hNext', hSteps⟩ := represents_calculateNext A hRep
    obtain rfl := Option.some.inj (hNext.symm.trans hNext')
    exact selected_iff hRep.nonnull hSteps.step
  constructor
  · exact fun hFound => ⟨L, h.self, (hStep L h.self).mp hFound⟩
  · rintro ⟨M, hRep, hLive⟩
    exact (hStep M hRep).mpr hLive

/-- A tick loads the kernel's directory before anything else, and in the end the directory of the
process it goes to. -/
theorem tickHandler_directory (h : Represents processes k.scheduler L)
    (hTick : tickHandler A kernelDirectory registers k = some (k', accesses))
    (hFunctions : k.functionsToCall = [.runProcessScheduler]) :
    UnderKernel kernelDirectory k.directory accesses ∧
      k'.directory = (processes (if k'.scheduler.currentProcess = 0
        then k.scheduler.currentProcess else k'.scheduler.currentProcess)).directory := by
  obtain ⟨s, saved, hNext, rfl, hCases⟩ := tickHandler_cases hTick hFunctions
  obtain ⟨t, L', hNext', -, hRep, -⟩ := represents_calculateNext A h
  obtain rfl : s = t := Option.some.inj (hNext.symm.trans hNext')
  rcases hCases with ⟨hNull, rfl, rfl⟩ | ⟨hNull, rfl, rfl⟩
  · exact ⟨by simp [UnderKernel], by simp [hNull, hRep.directory]⟩
  · refine ⟨?_, ?_⟩
    · by_cases hCurrent : k.scheduler.currentProcess = 0 <;> simp [hCurrent, UnderKernel]
    · simp only [hNull, if_false]
      rw [(savedProcesses_fields ..).2.2, hRep.directory]

/-! ## Runs -/

/-- What holds between the entries: the loaded directory is that of the current process. -/
structure Placed (processes : Nat → KernelProcess) (k : Kernel) : Prop where
  lists : ∃ L, Represents processes k.scheduler L
  functions : k.functionsToCall = [.runProcessScheduler]
  current : k.scheduler.currentProcess ≠ 0 →
    (processes k.scheduler.currentProcess).directory = k.directory

theorem placed_tick (h : Placed processes k)
    (hTick : tickHandler A kernelDirectory registers k = some (k', accesses)) :
    Placed processes k' := by
  obtain ⟨⟨L, hRep⟩, hFunctions, -⟩ := h
  obtain ⟨s, hNext, -, hFunctions', hKeep, -⟩ :=
    tickHandler_spec processes hTick hFunctions
  obtain ⟨t, L', hNext', -, hRep', -⟩ := represents_calculateNext A hRep
  obtain rfl := Option.some.inj (hNext.symm.trans hNext')
  refine ⟨⟨L', hKeep L' hRep'⟩, hFunctions'.trans hFunctions, fun hCurrent => ?_⟩
  rw [(tickHandler_directory hRep hTick hFunctions).2, if_neg hCurrent]

theorem currentProcess_addItem (A : NodeSource) (process : Nat) (s : ProcessScheduler) :
    (addItem A process s).currentProcess = s.currentProcess := by
  rw [addItem]
  split <;> rfl

theorem loaded_startProcess (A : NodeSource) (kernelDirectory process : Nat) (k : Kernel) :
    (startProcess A kernelDirectory process k).kernel.directory = k.directory := by
  by_cases hPid : k.cachedPid = 0 <;> simp [startProcess, hPid, loaded]

theorem loaded_endProcess (kernelDirectory pid : Nat) (k : Kernel) :
    (endProcess kernelDirectory pid k).kernel.directory = k.directory := by
  by_cases hPid : k.cachedPid = 1 <;> simp [endProcess, hPid, loaded]

theorem pageFaultHandler_kernel (errCode : Nat) (k : Kernel) :
    (pageFaultHandler errCode k).kernel = k := by
  rw [pageFaultHandler]
  dsimp only
  split
  · split <;> rfl
  · rfl

theorem placed_step (h : Placed processes k) (hStep : EntryStep kernelDirectory k e k') :
    Placed processes k' := by
  cases hStep with
  | @enter r A hProcess hEnter hExit =>
    cases e with
    | tick registers =>
      obtain ⟨r', hTick, rfl⟩ := Option.map_eq_some_iff.mp hEnter
      exact placed_tick h hTick
    | pageFault errCode =>
      cases hEnter
      rwa [pageFaultHandler_kernel]
    | startProcess process =>
      cases hEnter
      obtain ⟨⟨L, hRep⟩, hFunctions, hCurrent⟩ := h
      obtain ⟨L', -, hRep', -⟩ := represents_addItem A hRep (hProcess process rfl)
      refine ⟨⟨L', hRep'⟩, hFunctions, fun hNonnull => ?_⟩
      have hSame := currentProcess_addItem A process k.scheduler
      rw [loaded_startProcess]
      exact hSame ▸ hCurrent (hSame ▸ hNonnull)
    | endProcess pid =>
      cases hEnter
      obtain ⟨⟨L, hRep⟩, hFunctions, hCurrent⟩ := h
      obtain ⟨L', -, hRep'⟩ := represents_signalEnd hRep pid
      refine ⟨⟨L', hRep'⟩, hFunctions, fun hNonnull => ?_⟩
      rw [loaded_endProcess]
      exact hCurrent hNonnull

theorem disciplined_tick (h : Placed processes k)
    (hTick : tickHandler A kernelDirectory registers k = some (k', accesses)) :
    Disciplined kernelDirectory k ⟨k', accesses, tickExit k k'⟩ ↔
      Meets kernelDirectory k (.tick registers) := by
  obtain ⟨⟨L, hRep⟩, hFunctions, hCurrent⟩ := h
  obtain ⟨hUnder, hDirectory⟩ := tickHandler_directory hRep hTick hFunctions
  obtain ⟨t, hNext, hSelected, -⟩ := tickHandler_spec processes hTick hFunctions
  have hFound := calculateNext_ne_zero_iff hRep hNext
  rw [← hSelected] at hFound
  rw [Meets, ← hFound, hRep.directory]
  by_cases hNone : k.scheduler.currentProcess = 0
  · by_cases hNull : k'.scheduler.currentProcess = 0
    · -- there is nobody to go back to
      rw [if_pos hNull, hNone] at hDirectory
      refine ⟨fun hDisciplined => Or.inr (Or.inr ?_), fun hMeets => ⟨hUnder, fun _ => ?_⟩⟩
      · rw [← hDirectory]
        exact hDisciplined.restored (if_pos (Or.inl hNull))
      · refine hDirectory.trans ((hMeets.resolve_left fun hne => hne hNone).resolve_left ?_)
        exact fun hne => hne hNull
    · refine ⟨fun _ => Or.inr (Or.inl hNull), fun _ => ⟨hUnder, fun hExit => ?_⟩⟩
      rw [tickExit, if_neg (by rw [hNone, or_self]; exact hNull)] at hExit
      cases hExit
  · refine ⟨fun _ => Or.inl hNone, fun _ => ⟨hUnder, fun hExit => ?_⟩⟩
    dsimp only at hExit ⊢
    rw [hDirectory]
    rw [tickExit] at hExit
    split at hExit
    · rename_i hSame
      rcases hSame with hNull | hSame
      · rw [if_pos hNull, hCurrent hNone]
      · rw [hSame, if_neg hNone, hCurrent hNone]
    · cases hExit

theorem placed_run {A₀ : NodeSource} {kernelProcess eip : Nat} {heap : NodeHeap Nat}
    {records : Nat → KernelProcess} (hKernel : kernelProcess ≠ 0)
    (hRun : Run (EntryStep kernelDirectory)
      (processingInitialize A₀ kernelDirectory kernelProcess eip heap records) es k) :
    Placed (Function.update records kernelProcess (newProcess 1 .system kernelDirectory eip))
      k := by
  refine hRun.invariant ?_ fun _ _ _ h hStep => placed_step h hStep
  obtain ⟨L, -, hRep, -⟩ := represents_addItem A₀ (represents_start heap _) hKernel
  refine ⟨⟨L, hRep⟩, rfl, fun hCurrent => absurd ?_ hCurrent⟩
  exact currentProcess_addItem ..

/-- In every run each entry returns, and it is disciplined if and only if its condition holds. -/
theorem disciplined_iff {A₀ : NodeSource} {kernelProcess eip : Nat} {heap : NodeHeap Nat}
    {records : Nat → KernelProcess} (hKernel : kernelProcess ≠ 0)
    (hRun : Run (EntryStep kernelDirectory)
      (processingInitialize A₀ kernelDirectory kernelProcess eip heap records) es k)
    (A : NodeSource) (e : Entry) :
    ∃ r, enter A kernelDirectory e k = some r ∧
      (Disciplined kernelDirectory k r ↔ Meets kernelDirectory k e) := by
  cases e with
  | pageFault errCode => exact ⟨_, rfl, disciplined_pageFault errCode k⟩
  | startProcess process => exact ⟨_, rfl, disciplined_startProcess process k⟩
  | endProcess pid => exact ⟨_, rfl, disciplined_endProcess pid k⟩
  | tick registers =>
    obtain ⟨⟨L, hRep⟩, hFunctions, -⟩ := placed_run hKernel hRun
    obtain ⟨s, -, hNext, -⟩ := represents_calculateNext A hRep
    obtain ⟨⟨k', accesses⟩, hTick⟩ : ∃ r, tickHandler A kernelDirectory registers k = some r := by
      simp [tickHandler, hFunctions, CallableFunc.run, hNext]
    refine ⟨_, by rw [enter, hTick]; rfl, disciplined_tick (placed_run hKernel hRun) hTick⟩

/-! ## The cached pid -/

/-- The cached pid belongs to the process whose directory is loaded; it is 0 before the first
switch. -/
def Cached (kernelDirectory : Nat) (processes : Nat → KernelProcess) (k : Kernel) : Prop :=
  k.cachedPid = 0 ∧ k.directory = kernelDirectory ∨
    ∃ p, p ≠ 0 ∧ k.cachedPid = (processes p).pid ∧ k.directory = (processes p).directory

theorem tickHandler_cachedPid (h : Represents processes k.scheduler L)
    (hTick : tickHandler A kernelDirectory registers k = some (k', accesses))
    (hFunctions : k.functionsToCall = [.runProcessScheduler]) :
    k'.cachedPid = if k'.scheduler.currentProcess = 0 then k.cachedPid
      else (processes k'.scheduler.currentProcess).pid := by
  obtain ⟨s, saved, hNext, rfl, hCases⟩ := tickHandler_cases hTick hFunctions
  obtain ⟨t, L', hNext', -, hRep, -⟩ := represents_calculateNext A h
  obtain rfl : s = t := Option.some.inj (hNext.symm.trans hNext')
  rcases hCases with ⟨hNull, rfl, -⟩ | ⟨hNull, rfl, -⟩
  · exact (if_pos hNull).symm
  · simp only [hNull, if_false]
    rw [(savedProcesses_fields ..).1, hRep.pid]

theorem cached_step (h : Placed processes k) (hCached : Cached kernelDirectory processes k)
    (hStep : EntryStep kernelDirectory k e k') (hMeets : Meets kernelDirectory k e) :
    Cached kernelDirectory processes k' := by
  cases hStep with
  | @enter r A hProcess hEnter hExit =>
    cases e with
    | tick registers =>
      obtain ⟨⟨k', accesses⟩, hTick, rfl⟩ := Option.map_eq_some_iff.mp hEnter
      have hDisciplined := (disciplined_tick h hTick).mpr hMeets
      obtain ⟨⟨L, hRep⟩, hFunctions, -⟩ := h
      have hPid := tickHandler_cachedPid hRep hTick hFunctions
      by_cases hNull : k'.scheduler.currentProcess = 0
      · have hSame := hDisciplined.restored (if_pos (Or.inl hNull))
        rw [if_pos hNull] at hPid
        dsimp only [Cached] at hCached hSame ⊢
        rwa [hPid, hSame]
      · have hDirectory := (tickHandler_directory hRep hTick hFunctions).2
        rw [if_neg hNull] at hPid hDirectory
        exact Or.inr ⟨_, hNull, hPid, hDirectory⟩
    | pageFault errCode =>
      cases hEnter
      rwa [pageFaultHandler_kernel]
    | startProcess process =>
      cases hEnter
      rw [Cached, loaded_startProcess]
      exact hCached
    | endProcess pid =>
      cases hEnter
      rw [Cached, loaded_endProcess]
      exact hCached

/-- While pids are as `_pid_seq` gives them, `Start` and `End` are always disciplined in a run
whose entries meet their condition. -/
theorem disciplined_of_pids {A₀ : NodeSource} {kernelProcess eip : Nat} {heap : NodeHeap Nat}
    {records : Nat → KernelProcess} (hKernel : kernelProcess ≠ 0)
    (hPids : ∀ p, p ≠ 0 → p ≠ kernelProcess → 1 < (records p).pid)
    (hRun : Run (Guarded (EntryStep kernelDirectory) (Meets kernelDirectory))
      (processingInitialize A₀ kernelDirectory kernelProcess eip heap records) es k)
    (A : NodeSource) (process pid : Nat) :
    Disciplined kernelDirectory k (startProcess A kernelDirectory process k) ∧
      Disciplined kernelDirectory k (endProcess kernelDirectory pid k) := by
  have hCached : Cached kernelDirectory
      (Function.update records kernelProcess (newProcess 1 .system kernelDirectory eip)) k := by
    induction hRun with
    | refl => exact Or.inl ⟨rfl, rfl⟩
    | tail hPrior hLast ih =>
      exact cached_step (placed_run hKernel hPrior.of_guarded) ih hLast.2 hLast.1
  rw [disciplined_startProcess, disciplined_endProcess]
  rcases hCached with ⟨-, hDirectory⟩ | ⟨p, hp, hPid, hDirectory⟩
  · exact ⟨Or.inr hDirectory, Or.inr hDirectory⟩
  · by_cases hOwn : p = kernelProcess
    · rw [hOwn, Function.update_self] at hDirectory
      exact ⟨Or.inr hDirectory, Or.inr hDirectory⟩
    · rw [Function.update_of_ne hOwn] at hPid
      have hLt := hPids p hp hOwn
      exact ⟨Or.inl (by omega), Or.inl (by omega)⟩

/-! ## Faults of other processes -/

/-- Make an entry that the kernel survives. -/
def entryCall (A : NodeSource) (kernelDirectory : Nat) (k : Kernel) (e : Entry) :
    Option Kernel :=
  if e = .startProcess 0 then none
  else ((enter A kernelDirectory e k).filter fun r => r.exit ≠ .halted).map Entered.kernel

theorem entryStep_of_entryCall {A : NodeSource}
    (h : entryCall A kernelDirectory k e = some k') : EntryStep kernelDirectory k e k' := by
  rw [entryCall] at h
  split at h
  · cases h
  · rename_i hNull
    obtain ⟨r, hFilter, rfl⟩ := Option.map_eq_some_iff.mp h
    obtain ⟨hEnter, hExit⟩ := Option.filter_eq_some_iff.mp hFilter
    refine .enter A ?_ hEnter (of_decide_eq_true hExit)
    rintro p rfl rfl
    exact hNull rfl

/-- The kernel after its own process, at 4, has ended and the one at 8 has been switched to. -/
def inProcess : Option Kernel :=
  [.startProcess 8, .tick ⟨0, 0, 0⟩, .endProcess 1, .tick ⟨0, 0, 0⟩].foldlM
    (entryCall kernelPool 512)
    (processingInitialize kernelPool 512 4 0 ⟨fun _ => ⟨0, 0⟩, []⟩
      fun p => newProcess p .high (4096 * p) 0)

theorem disciplined_inProcess : ∃ k r, inProcess = some k ∧
    enter kernelPool 512 (.tick ⟨0, 0, 0⟩) k = some r ∧ Disciplined 512 k r := by
  have hEnd : inProcess.map (fun k => k.scheduler.currentProcess) = some 8 := by
    decide +kernel
  obtain ⟨k, hk, hCurrent⟩ := Option.map_eq_some_iff.mp hEnd
  obtain ⟨r, hEnter, hIff⟩ := disciplined_iff (by decide)
    (Run.of_foldlM (fun _ _ _ => entryStep_of_entryCall) hk) kernelPool (.tick ⟨0, 0, 0⟩)
  exact ⟨k, r, hk, hEnter, hIff.mpr (Or.inl (by rw [hCurrent]; decide))⟩

/-- The fault handler asks the scheduler for the process while the directory of the process is
loaded. -/
theorem not_disciplined_inProcess : ∃ k, inProcess = some k ∧
    ¬ Disciplined 512 k (pageFaultHandler 2 k) := by
  have hEnd : inProcess.map (fun k => (k.hasScheduler, k.directory, k.scheduler.currentProcess)) =
      some (true, 32768, 8) := by
    decide +kernel
  obtain ⟨k, hk, hState⟩ := Option.map_eq_some_iff.mp hEnd
  simp only [Prod.mk.injEq] at hState
  refine ⟨k, hk, fun h => ?_⟩
  have hUnder := h.under
  simp [pageFaultHandler, hState, UnderKernel] at hUnder

end Juos.Scheduler
