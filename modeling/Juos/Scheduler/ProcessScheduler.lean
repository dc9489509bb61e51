import Juos.DataStructures.Queue
import Juos.Machine.RoundRobin
import Mathlib.Data.List.Perm.Subperm

/-!
# The process scheduler

`ProcessScheduler` over the memory that it works on: the nodes of its two queues and the processes
they point to. `_FindProcess` is bounded by the number of nodes in use, because each of its rounds
deletes one; `findProcess_spec` shows that it always ends with that bound.

Operator `new` may return null, and a process whose node is null is lost. `ListStep` is the
scheduler on lists, without memory, when no process is, and `LossyStep` the scheduler on lists that
may lose some. `lossyRun` shows that every run of the scheduler is one of `LossyStep` with the same
events, and `listRun` that it is one of `ListStep` if `new` has a node for each call.

The array of canceled pids is the list that its `Vector` holds; a growth of it for which there is no
room is left out here.
-/

namespace Juos.Scheduler

open DataStructures Machine

/-! ## Processes -/

inductive Priority where
  | low
  | regular
  | high
  | critical
  | system
  deriving DecidableEq, Repr

/-- The saved registers of a process. -/
structure Registers where
  eip : Nat
  esp : Nat
  ebp : Nat
  deriving DecidableEq, Repr

structure KernelProcess where
  pid : Nat
  priority : Priority
  directory : Nat
  timesRan : Nat
  registers : Registers
  deriving DecidableEq, Repr

/-! ## The scheduler -/

structure ProcessScheduler where
  /-- the nodes of both queues; their elements point to processes -/
  heap : NodeHeap Nat
  /-- the process at an address -/
  processes : Nat → KernelProcess
  systemProcesses : Queue
  regularProcesses : Queue
  canceledProcesses : List Nat
  /-- `_CurrentProcess`, null when there is none -/
  currentProcess : Nat

/-- A scheduler without processes. -/
def start (heap : NodeHeap Nat) (processes : Nat → KernelProcess) : ProcessScheduler :=
  ⟨heap, processes, .empty, .empty, [], 0⟩

def isCanceled (canceled : List Nat) (procId : Nat) : Bool :=
  canceled.any fun canceledId => procId == canceledId

def addItem (A : NodeSource) (process : Nat) (s : ProcessScheduler) : ProcessScheduler :=
  if (s.processes process).priority = .system then
    let r := s.systemProcesses.enqueue A process s.heap
    { s with systemProcesses := r.1, heap := r.2 }
  else
    let r := s.regularProcesses.enqueue A process s.heap
    { s with regularProcesses := r.1, heap := r.2 }

/-- `times_ran++` on 64 bits. -/
def countRun (process : Nat) (processes : Nat → KernelProcess) : Nat → KernelProcess :=
  Function.update processes process
    { processes process with timesRan := ((processes process).timesRan + 1) % 18446744073709551616 }

/-- What `_FindProcess` returns and leaves behind. -/
structure Found where
  process : Nat
  queue : Queue
  heap : NodeHeap Nat
  processes : Nat → KernelProcess

/-- `_FindProcess`, with at most `fuel` rounds. -/
def findProcess (A : NodeSource) (canceled : List Nat) (processes : Nat → KernelProcess) :
    Nat → Queue → NodeHeap Nat → Option Found
  | 0, _, _ => none
  | fuel + 1, queue, heap =>
    if queue.isempty then some ⟨0, queue, heap, processes⟩
    else
      let proc := queue.top heap
      let r := queue.dequeue heap
      if isCanceled canceled (processes proc).pid then
        findProcess A canceled processes fuel r.2.1 r.2.2
      else
        let next := r.1.getD 0
        let e := r.2.1.enqueue A next r.2.2
        some ⟨next, e.1, e.2, countRun next processes⟩

def calculateNext (A : NodeSource) (s : ProcessScheduler) : Option ProcessScheduler :=
  (findProcess A s.canceledProcesses s.processes (s.heap.live.length + 1) s.systemProcesses
    s.heap).bind fun r =>
      let s := { s with systemProcesses := r.queue, heap := r.heap, processes := r.processes }
      if r.process ≠ 0 then some { s with currentProcess := r.process }
      else
        (findProcess A s.canceledProcesses s.processes (s.heap.live.length + 1) s.regularProcesses
          s.heap).map fun r =>
            { s with
              regularProcesses := r.queue
              heap := r.heap
              processes := r.processes
              currentProcess := r.process }

def signalEnd (pid : Nat) (s : ProcessScheduler) : ProcessScheduler :=
  { s with canceledProcesses := s.canceledProcesses ++ [pid] }

/-! ## Runs -/

/-- A call, and for `CalculateNext` the process it makes the current one. -/
inductive SchedulerEvent where
  | addItem (process : Nat)
  | signalEnd (pid : Nat)
  | calculateNext (selected : Nat)
  deriving DecidableEq, Repr

inductive SchedulerStep (A : NodeSource) :
    ProcessScheduler → SchedulerEvent → ProcessScheduler → Prop
  | addItem {s : ProcessScheduler} {process : Nat} (hProcess : process ≠ 0) :
      SchedulerStep A s (.addItem process) (addItem A process s)
  | signalEnd {s : ProcessScheduler} (pid : Nat) :
      SchedulerStep A s (.signalEnd pid) (signalEnd pid s)
  | calculateNext {s t : ProcessScheduler} (hNext : calculateNext A s = some t) :
      SchedulerStep A s (.calculateNext t.currentProcess) t

/-- A call, whatever operator `new` answers. -/
def Called (s : ProcessScheduler) (e : SchedulerEvent) (t : ProcessScheduler) : Prop :=
  ∃ A, SchedulerStep A s e t

/-- Operator `new` has the node that the call asks for, `CalculateNext` when it has deleted one. -/
def Supplied (A : NodeSource) (s : ProcessScheduler) : SchedulerEvent → Prop
  | .addItem _ => A.new s.heap.live ≠ 0
  | .signalEnd _ => True
  | .calculateNext _ => A.Answers s.heap.live

/-- A call for which operator `new` has a node. -/
def Served (s : ProcessScheduler) (e : SchedulerEvent) (t : ProcessScheduler) : Prop :=
  ∃ A, Supplied A s e ∧ SchedulerStep A s e t

theorem Served.addItem {A : NodeSource} {s : ProcessScheduler} {process : Nat}
    (hProcess : process ≠ 0) (hNode : A.new s.heap.live ≠ 0) :
    Served s (.addItem process) (addItem A process s) := ⟨A, hNode, .addItem hProcess⟩

theorem Served.signalEnd {s : ProcessScheduler} (pid : Nat) :
    Served s (.signalEnd pid) (signalEnd pid s) := ⟨kernelPool, trivial, .signalEnd pid⟩

theorem Served.calculateNext {A : NodeSource} {s t : ProcessScheduler}
    (hNode : A.Answers s.heap.live) (hNext : calculateNext A s = some t) :
    Served s (.calculateNext t.currentProcess) t := ⟨A, hNode, .calculateNext hNext⟩

theorem Served.called {s t : ProcessScheduler} {e : SchedulerEvent} (h : Served s e t) :
    Called s e t :=
  h.imp fun _ hCall => hCall.2

/-- Make one call, if it selects the process that the event names. -/
def call (A : NodeSource) (s : ProcessScheduler) : SchedulerEvent → Option ProcessScheduler
  | .addItem process => if process = 0 then none else some (addItem A process s)
  | .signalEnd pid => some (signalEnd pid s)
  | .calculateNext selected => (calculateNext A s).filter fun t => t.currentProcess = selected

theorem schedulerStep_of_call {A : NodeSource} {s t : ProcessScheduler} {e : SchedulerEvent}
    (h : call A s e = some t) : SchedulerStep A s e t := by
  cases e with
  | addItem process =>
    rw [call] at h
    split at h
    · cases h
    · rename_i hProcess
      cases h
      exact .addItem hProcess
  | signalEnd pid =>
    cases h
    exact .signalEnd pid
  | calculateNext selected =>
    obtain ⟨hNext, hSelected⟩ := Option.filter_eq_some_iff.mp h
    rw [← of_decide_eq_true hSelected]
    exact .calculateNext hNext

/-- Make one call with the kernel's pool while a block of it is free. -/
def servedCall (s : ProcessScheduler) (e : SchedulerEvent) : Option ProcessScheduler :=
  if s.heap.live.length < 100 then call kernelPool s e else none

theorem supplied_kernelPool {s : ProcessScheduler} (hFew : s.heap.live.length < 100)
    (e : SchedulerEvent) : Supplied kernelPool s e := by
  cases e with
  | addItem process => exact NodeSource.fastbins_ne_zero (by decide) hFew
  | signalEnd pid => trivial
  | calculateNext selected => exact NodeSource.fastbins_answers (by decide) (Nat.le_of_lt hFew)

theorem served_of_servedCall {s t : ProcessScheduler} {e : SchedulerEvent}
    (h : servedCall s e = some t) : Served s e t := by
  rw [servedCall] at h
  split at h
  · rename_i hFew
    exact ⟨kernelPool, supplied_kernelPool hFew e, schedulerStep_of_call h⟩
  · cases h

theorem exists_served {s : ProcessScheduler} {es : List SchedulerEvent}
    (h : (es.foldlM servedCall s).isSome = true) : ∃ t, Run Served s es t := by
  obtain ⟨t, ht⟩ := Option.isSome_iff_exists.mp h
  exact ⟨t, Run.of_foldlM (fun _ _ _ => served_of_servedCall) ht⟩

/-- The processes that were added, in order. -/
def added (es : List SchedulerEvent) : List Nat :=
  es.filterMap fun
    | .addItem process => some process
    | _ => none

/-- The pids that were passed to `SignalEnd`. -/
def signaled (es : List SchedulerEvent) : List Nat :=
  es.filterMap fun
    | .signalEnd pid => some pid
    | _ => none

/-! ## The scheduler on lists -/

structure Lists where
  system : List Nat
  regular : List Nat
  /-- the pids that have ended -/
  ended : List Nat

def Lists.empty : Lists := ⟨[], [], []⟩

/-- The process has ended. -/
def Ended (processes : Nat → KernelProcess) (ended : List Nat) (process : Nat) : Prop :=
  (processes process).pid ∈ ended

inductive ListStep (processes : Nat → KernelProcess) : Lists → SchedulerEvent → Lists → Prop
  | addSystem {l : Lists} {process : Nat} (hProcess : process ≠ 0)
      (hClass : (processes process).priority = .system) :
      ListStep processes l (.addItem process) { l with system := l.system ++ [process] }
  | addRegular {l : Lists} {process : Nat} (hProcess : process ≠ 0)
      (hClass : (processes process).priority ≠ .system) :
      ListStep processes l (.addItem process) { l with regular := l.regular ++ [process] }
  | signalEnd {l : Lists} (pid : Nat) :
      ListStep processes l (.signalEnd pid) { l with ended := l.ended ++ [pid] }
  | system {l : Lists} {process : Nat} {queue : List Nat}
      (hTurn : Turn (Ended processes l.ended) l.system process queue) :
      ListStep processes l (.calculateNext process) { l with system := queue }
  | regular {l : Lists} {process : Nat} {queue : List Nat}
      (hNone : ∀ c ∈ l.system, Ended processes l.ended c)
      (hTurn : Turn (Ended processes l.ended) l.regular process queue) :
      ListStep processes l (.calculateNext process) { l with system := [], regular := queue }
  | idle {l : Lists} (hNone : ∀ c ∈ l.system, Ended processes l.ended c)
      (hNone' : ∀ c ∈ l.regular, Ended processes l.ended c) :
      ListStep processes l (.calculateNext 0) { l with system := [], regular := [] }

/-- A step of the lists in which the process that is added or selected may be lost. -/
inductive LossyStep (processes : Nat → KernelProcess) : Lists → SchedulerEvent → Lists → Prop
  | kept {l l' : Lists} {e : SchedulerEvent} (hStep : ListStep processes l e l') :
      LossyStep processes l e l'
  | lost {l : Lists} {process : Nat} (hProcess : process ≠ 0) :
      LossyStep processes l (.addItem process) l
  | systemLost {l : Lists} {process : Nat} {queue : List Nat}
      (hTurn : Turn (Ended processes l.ended) l.system process (queue ++ [process])) :
      LossyStep processes l (.calculateNext process) { l with system := queue }
  | regularLost {l : Lists} {process : Nat} {queue : List Nat}
      (hNone : ∀ c ∈ l.system, Ended processes l.ended c)
      (hTurn : Turn (Ended processes l.ended) l.regular process (queue ++ [process])) :
      LossyStep processes l (.calculateNext process) { l with system := [], regular := queue }

/-! ## The loop of `_FindProcess` -/

variable {A : NodeSource} {canceled : List Nat} {processes processes' : Nat → KernelProcess}
  {heap : NodeHeap Nat} {q q' : Queue} {ps qs : List Nat} {l m : List Nat} {fuel : Nat} {r : Found}

theorem isCanceled_iff {procId : Nat} : isCanceled canceled procId = true ↔ procId ∈ canceled := by
  simp [isCanceled]

/-- What became of the elements `l`: somebody took a turn, or there was nobody to take one. -/
def Selects (ended : Nat → Prop) (l : List Nat) (process : Nat) (l' : List Nat) : Prop :=
  Turn ended l process l' ∨ (∀ c ∈ l, ended c) ∧ process = 0 ∧ l' = []

theorem Selects.cons {ended : Nat → Prop} {x process : Nat} {l' : List Nat} (hEnded : ended x)
    (h : Selects ended l process l') : Selects ended (x :: l) process l' := by
  rcases h with ⟨front, rest, rfl, hFront, hTurn⟩ | ⟨hAll, hNull⟩
  · exact Or.inl ⟨x :: front, rest, rfl, List.forall_mem_cons.mpr ⟨hEnded, hFront⟩, hTurn⟩
  · exact Or.inr ⟨List.forall_mem_cons.mpr ⟨hEnded, hAll⟩, hNull⟩

theorem findProcess_record (h : findProcess A canceled processes fuel q heap = some r) :
    (r.process = 0 ∧ r.processes = processes) ∨ r.processes = countRun r.process processes := by
  induction fuel generalizing q heap with
  | zero => cases h
  | succ fuel ih =>
    rw [findProcess] at h
    split at h
    · cases h
      exact Or.inl ⟨rfl, rfl⟩
    · dsimp only at h
      split at h
      · exact ih h
      · cases h
        exact Or.inr rfl

/-- What a call of `_FindProcess` on the elements `l` of the first of two queues did. With a node
for it the process that had its turn is in the queue again; without one it is lost. -/
structure FindProcess (A : NodeSource) (canceled : List Nat) (processes : Nat → KernelProcess)
    (heap : NodeHeap Nat) (q q' : Queue) (ps qs l m : List Nat) (r : Found) (ps' l' : List Nat) :
    Prop where
  pair : Queue.Pair r.heap r.queue q' ps' qs l' m
  result : Selects (Ended processes canceled) l r.process l' ∨
    Turn (Ended processes canceled) l r.process (l' ++ [r.process])
  served : A.Answers heap.live → q.Ends ps →
    r.queue.Ends ps' ∧ Selects (Ended processes canceled) l r.process l'
  idle : (∀ c ∈ l, Ended processes canceled c) → r.heap.live.Sublist heap.live

theorem findProcess_spec (A : NodeSource) (canceled : List Nat)
    (processes : Nat → KernelProcess) (hPair : Queue.Pair heap q q' ps qs l m)
    (hFuel : l.length < fuel) : ∃ r ps' l',
      findProcess A canceled processes fuel q heap = some r ∧
        FindProcess A canceled processes heap q q' ps qs l m r ps' l' := by
  induction l generalizing fuel q ps heap with
  | nil =>
    obtain ⟨fuel, rfl⟩ := Nat.exists_eq_succ_of_ne_zero (Nat.ne_of_gt hFuel)
    have hNone : Selects (Ended processes canceled) [] 0 [] :=
      Or.inr ⟨fun _ hc => (nomatch hc), rfl, rfl⟩
    refine ⟨_, ps, [], by rw [findProcess, if_pos (hPair.first.isempty_iff.mpr rfl)], hPair,
      Or.inl hNone, fun _ hEnds => ⟨hEnds, hNone⟩, fun _ => List.Sublist.refl _⟩
  | cons x l ih =>
    obtain ⟨fuel, rfl⟩ := Nat.exists_eq_succ_of_ne_zero (Nat.ne_zero_of_lt hFuel)
    have hFull : ¬ q.isempty = true := fun hEmpty => nomatch hPair.first.isempty_iff.mp hEmpty
    have hTop := hPair.first.top
    obtain ⟨p, ps, q₁, rfl, hDequeue, hLast, hRest⟩ := hPair.dequeue
    have hHead := hPair.first.live p List.mem_cons_self
    rw [findProcess, if_neg hFull]
    simp only [hTop, hDequeue, Option.getD_some]
    by_cases hEnded : isCanceled canceled (processes x).pid = true
    · rw [if_pos hEnded]
      rw [isCanceled_iff] at hEnded
      obtain ⟨r, ps', l', hFind, hr⟩ := ih hRest (Nat.lt_of_succ_lt_succ hFuel)
      refine ⟨r, ps', l', hFind, hr.pair, ?_, fun hAnswers hEnds => ?_, fun hAll =>
        (hr.idle (List.forall_mem_cons.mp hAll).2).trans List.erase_sublist⟩
      · refine hr.result.imp (·.cons hEnded) ?_
        rintro ⟨front, rest, rfl, hFront, hTurn⟩
        exact ⟨x :: front, rest, rfl, List.forall_mem_cons.mpr ⟨hEnded, hFront⟩, hTurn⟩
      · obtain ⟨hEnds', hSelects⟩ := hr.served (hAnswers.sublist List.erase_sublist)
          (hEnds.tail hLast)
        exact ⟨hEnds', hSelects.cons hEnded⟩
    · rw [if_neg hEnded]
      rw [isCanceled_iff] at hEnded
      have hTurn : Turn (Ended processes canceled) (x :: l) x (l ++ [x]) :=
        ⟨[], l, rfl, fun c hc => (nomatch hc), hEnded, rfl⟩
      obtain ⟨ps', l', hPair', hElements⟩ := hRest.enqueueAt x (A.fresh (heap.live.erase p))
      refine ⟨_, ps', l', rfl, hPair', ?_, fun hAnswers hEnds => ?_, fun hAll =>
        absurd (hAll x List.mem_cons_self) hEnded⟩
      · rcases hElements with ⟨-, rfl, -⟩ | ⟨-, rfl⟩
        · exact Or.inl (Or.inl hTurn)
        · exact Or.inr hTurn
      · have hNew := hAnswers (heap.live.erase p) List.erase_sublist (by
          rw [List.length_erase_of_mem hHead]
          exact Nat.sub_one_lt (Nat.ne_of_gt (List.length_pos_of_mem hHead)))
        obtain ⟨-, rfl, hEnds'⟩ := hElements.resolve_right fun h => h.1 ⟨hNew, hEnds.tail hLast⟩
        exact ⟨hEnds', Or.inl hTurn⟩

/-! ## The memory of the scheduler -/

/-- The queues of `s` hold the lists `l`. -/
structure Represents (processes : Nat → KernelProcess) (s : ProcessScheduler) (l : Lists) :
    Prop where
  queues : ∃ ps qs,
    Queue.Pair s.heap s.systemProcesses s.regularProcesses ps qs l.system l.regular
  canceled : s.canceledProcesses = l.ended
  pid : ∀ a, (s.processes a).pid = (processes a).pid
  priority : ∀ a, (s.processes a).priority = (processes a).priority
  directory : ∀ a, (s.processes a).directory = (processes a).directory
  nonnull : ∀ c ∈ l.system ++ l.regular, c ≠ 0

variable {s t : ProcessScheduler} {L : Lists} {e : SchedulerEvent} {es : List SchedulerEvent}
  {process : Nat}

theorem threads_length_le (hThreads : Queue.Threads heap q ps l) :
    l.length ≤ heap.live.length := by
  rw [← hThreads.length]
  exact (List.subperm_of_subset hThreads.nodup hThreads.live).length_le

@[simp] theorem countRun_pid (a : Nat) :
    (countRun process processes a).pid = (processes a).pid := by
  by_cases h : a = process <;> simp [countRun, h, Function.update_of_ne]

@[simp] theorem countRun_priority (a : Nat) :
    (countRun process processes a).priority = (processes a).priority := by
  by_cases h : a = process <;> simp [countRun, h, Function.update_of_ne]

@[simp] theorem countRun_directory (a : Nat) :
    (countRun process processes a).directory = (processes a).directory := by
  by_cases h : a = process <;> simp [countRun, h, Function.update_of_ne]

theorem ended_congr (hPid : ∀ a, (processes' a).pid = (processes a).pid) :
    Ended processes' canceled = Ended processes canceled := by
  funext c
  rw [Ended, Ended, hPid]

/-- What the loop changes in the records. -/
theorem findProcess_fields (h : findProcess A canceled processes fuel q heap = some r) (a : Nat) :
    (r.processes a).pid = (processes a).pid ∧
      (r.processes a).priority = (processes a).priority ∧
      (r.processes a).directory = (processes a).directory := by
  rcases findProcess_record h with ⟨-, hSame⟩ | hCount
  · rw [hSame]
    exact ⟨rfl, rfl, rfl⟩
  · rw [hCount]
    exact ⟨countRun_pid a, countRun_priority a, countRun_directory a⟩

/-- `last` is the last node that is threaded. -/
def Whole (heap : NodeHeap Nat) (q : Queue) : Prop :=
  ∀ ps, Queue.Chain heap.nodes q.first ps → q.Ends ps

theorem whole_iff (hThreads : Queue.Threads heap q ps l) : Whole heap q ↔ q.Ends ps := by
  constructor
  · intro hWhole
    exact hWhole ps hThreads.chain
  · intro hEnds qs hChain
    rwa [Queue.chain_unique hChain hThreads.chain]

/-- The queue that `AddItem` puts processes of this priority into. -/
def classQueue (s : ProcessScheduler) (priority : Priority) : Queue :=
  if priority = .system then s.systemProcesses else s.regularProcesses

/-- Operator `new` has a node, and the queue of the class has not lost its last one. -/
def Takes (A : NodeSource) (s : ProcessScheduler) (priority : Priority) : Prop :=
  A.new s.heap.live ≠ 0 ∧ Whole s.heap (classQueue s priority)

/-- No queue has lost its last node. -/
structure Intact (s : ProcessScheduler) : Prop where
  system : Whole s.heap s.systemProcesses
  regular : Whole s.heap s.regularProcesses

theorem represents_start (heap : NodeHeap Nat) (processes : Nat → KernelProcess) :
    Represents processes (start heap processes) .empty :=
  ⟨⟨[], [], .empty heap⟩, rfl, fun _ => rfl, fun _ => rfl, fun _ => rfl, fun _ hc => nomatch hc⟩

theorem intact_start (heap : NodeHeap Nat) (processes : Nat → KernelProcess) :
    Intact (start heap processes) := by
  have hEmpty : Whole heap .empty :=
    (whole_iff (Queue.Holds.empty heap).toThreads).mpr fun _ hp => nomatch hp
  exact ⟨hEmpty, hEmpty⟩

/-- The scheduler stands for one triple of lists. -/
theorem Represents.unique {M : Lists} (h : Represents processes s L)
    (h' : Represents processes' s M) : L = M := by
  obtain ⟨ps, qs, hPair⟩ := h.queues
  obtain ⟨ps', qs', hPair'⟩ := h'.queues
  obtain ⟨system, regular, ended⟩ := L
  obtain ⟨system', regular', ended'⟩ := M
  obtain rfl : system = system' := hPair.first.unique hPair'.first
  obtain rfl : regular = regular' := hPair.second.unique hPair'.second
  obtain rfl : ended = ended' := h.canceled.symm.trans h'.canceled
  rfl

/-- A turn keeps the processes that are queued. -/
theorem turn_nonnull {x : Nat} {l' : List Nat} {ended : Nat → Prop} (hTurn : Turn ended l x l')
    (h : ∀ c ∈ l, c ≠ 0) : x ≠ 0 ∧ ∀ c ∈ l', c ≠ 0 := by
  obtain ⟨front, rest, rfl, -, -, rfl⟩ := hTurn
  refine ⟨h x (by simp), fun c hc => h c ?_⟩
  simp only [List.mem_append, List.mem_cons, List.not_mem_nil] at hc ⊢
  tauto

theorem selects_nonnull {x : Nat} {l' : List Nat} {ended : Nat → Prop}
    (hResult : Selects ended l x l' ∨ Turn ended l x (l' ++ [x])) (h : ∀ c ∈ l, c ≠ 0) :
    ∀ c ∈ l', c ≠ 0 := by
  rcases hResult with (hTurn | ⟨-, -, rfl⟩) | hTurn
  · exact (turn_nonnull hTurn h).2
  · exact fun c hc => nomatch hc
  · exact fun c hc => (turn_nonnull hTurn h).2 c (List.mem_append_left _ hc)

/-! ## Steps in memory -/

/-- One call in memory: on the lists it may lose a process, and does not if operator `new` has a
node and no queue has lost its last one. -/
structure Steps (A : NodeSource) (processes : Nat → KernelProcess) (s : ProcessScheduler)
    (L : Lists) (e : SchedulerEvent) (t : ProcessScheduler) (L' : Lists) : Prop where
  step : LossyStep processes L e L'
  represents : Represents processes t L'
  served : Supplied A s e → Intact s → ListStep processes L e L' ∧ Intact t

/-- The process is added to the list of its class, unless operator `new` has no node for it or its
queue has lost its last one. -/
theorem addItem_cases (A : NodeSource) (h : Represents processes s L) (hProcess : process ≠ 0) :
    ∃ L', Represents processes (addItem A process s) L' ∧
      (Takes A s (processes process).priority ∧ ListStep processes L (.addItem process) L' ∧
          (Intact s → Intact (addItem A process s)) ∨
        ¬ Takes A s (processes process).priority ∧ L' = L) := by
  obtain ⟨⟨ps, qs, hPair⟩, hCanceled, hPid, hPriority, hDirectory, hNonnull⟩ := h
  have hNonnull' : ∀ c ∈ L.system ++ L.regular ++ [process], c ≠ 0 := fun c hc =>
    (List.mem_append.mp hc).elim (hNonnull c) fun hNew => List.mem_singleton.mp hNew ▸ hProcess
  rw [Takes, classQueue]
  by_cases hClass : (processes process).priority = .system
  · obtain ⟨ps', l', hPair', hElements⟩ := hPair.enqueueAt process (A.fresh s.heap.live)
    rw [addItem, if_pos (by rw [hPriority, hClass]), if_pos hClass, whole_iff hPair.first]
    refine ⟨{ L with system := l' }, ⟨⟨ps', qs, hPair'⟩, hCanceled, hPid, hPriority, hDirectory,
      fun c hc => hNonnull' c ?_⟩, hElements.imp ?_ ?_⟩
    · rcases hElements with ⟨-, rfl, -⟩ | ⟨-, rfl⟩
      · simp only [List.mem_append] at hc ⊢
        tauto
      · exact List.mem_append_left _ hc
    · rintro ⟨hTakes, rfl, hEnds⟩
      refine ⟨hTakes, .addSystem hProcess hClass, fun hIntact => ?_⟩
      exact ⟨(whole_iff hPair'.first).mpr hEnds,
        (whole_iff hPair'.second).mpr ((whole_iff hPair.second).mp hIntact.regular)⟩
    · rintro ⟨hLost, rfl⟩
      exact ⟨hLost, rfl⟩
  · obtain ⟨qs', l', hPair', hElements⟩ := hPair.symm.enqueueAt process (A.fresh s.heap.live)
    rw [addItem, if_neg (by rwa [hPriority]), if_neg hClass, whole_iff hPair.second]
    refine ⟨{ L with regular := l' }, ⟨⟨ps, qs', hPair'.symm⟩, hCanceled, hPid, hPriority,
      hDirectory, fun c hc => hNonnull' c ?_⟩, hElements.imp ?_ ?_⟩
    · rcases hElements with ⟨-, rfl, -⟩ | ⟨-, rfl⟩
      · simp only [List.mem_append] at hc ⊢
        tauto
      · exact List.mem_append_left _ hc
    · rintro ⟨hTakes, rfl, hEnds⟩
      refine ⟨hTakes, .addRegular hProcess hClass, fun hIntact => ?_⟩
      exact ⟨(whole_iff hPair'.second).mpr ((whole_iff hPair.first).mp hIntact.system),
        (whole_iff hPair'.first).mpr hEnds⟩
    · rintro ⟨hLost, rfl⟩
      exact ⟨hLost, rfl⟩

theorem Intact.whole (h : Intact s) (priority : Priority) :
    Whole s.heap (classQueue s priority) := by
  rw [classQueue]
  split
  · exact h.system
  · exact h.regular

theorem represents_addItem (A : NodeSource) (h : Represents processes s L)
    (hProcess : process ≠ 0) :
    ∃ L', Steps A processes s L (.addItem process) (addItem A process s) L' := by
  obtain ⟨L', hRep, ⟨-, hStep, hIntact⟩ | ⟨hLost, rfl⟩⟩ := addItem_cases A h hProcess
  · exact ⟨L', .kept hStep, hRep, fun _ hWhole => ⟨hStep, hIntact hWhole⟩⟩
  · exact ⟨L', .lost hProcess, hRep, fun hNode hWhole =>
      absurd ⟨hNode, hWhole.whole _⟩ hLost⟩

/-- `CalculateNext` always returns. -/
theorem represents_calculateNext (A : NodeSource) (h : Represents processes s L) :
    ∃ t L', calculateNext A s = some t ∧
      Steps A processes s L (.calculateNext t.currentProcess) t L' := by
  obtain ⟨⟨ps, qs, hPair⟩, hCanceled, hPid, hPriority, hDirectory, hNonnull⟩ := h
  have hSystem : ∀ c ∈ L.system, c ≠ 0 := fun c hc => hNonnull c (List.mem_append_left _ hc)
  have hRegular : ∀ c ∈ L.regular, c ≠ 0 := fun c hc => hNonnull c (List.mem_append_right _ hc)
  have hEnded : Ended s.processes L.ended = Ended processes L.ended := ended_congr hPid
  obtain ⟨r, ps', l', hFind, hr⟩ := findProcess_spec A s.canceledProcesses s.processes hPair
    (Nat.lt_succ_of_le (threads_length_le hPair.first))
  obtain ⟨hPair₁, hResult, hServed, hIdle⟩ := hr
  rw [hCanceled, hEnded] at hResult hServed hIdle
  rw [calculateNext, hFind, Option.bind_some]
  have hFields := findProcess_fields hFind
  by_cases hNull : r.process = 0
  · obtain ⟨hNone, rfl⟩ : (∀ c ∈ L.system, Ended processes L.ended c) ∧ l' = [] := by
      rcases hResult with (hTurn | ⟨hNone, -, hNil⟩) | hTurn
      · exact absurd hNull (turn_nonnull hTurn hSystem).1
      · exact ⟨hNone, hNil⟩
      · exact absurd hNull (turn_nonnull hTurn hSystem).1
    obtain ⟨r', qs', l'', hFind', hr'⟩ := findProcess_spec A s.canceledProcesses r.processes
      hPair₁.symm (Nat.lt_succ_of_le (threads_length_le hPair₁.second))
    obtain ⟨hPair₂, hResult', hServed', -⟩ := hr'
    have hFields' := findProcess_fields hFind'
    have hEnded' : Ended r.processes L.ended = Ended processes L.ended :=
      ended_congr fun a => (hFields a).1.trans (hPid a)
    rw [hCanceled, hEnded'] at hResult' hServed'
    have hStep : Selects (Ended processes L.ended) L.regular r'.process l'' →
        ListStep processes L (.calculateNext r'.process)
          { L with system := [], regular := l'' } := by
      rintro (hTurn | ⟨hNone', hNull', rfl⟩)
      · exact .regular hNone hTurn
      · rw [hNull']
        exact .idle hNone hNone'
    simp only [hNull, ne_eq, not_true_eq_false, if_false, hFind', Option.map_some]
    refine ⟨_, { L with system := [], regular := l'' }, rfl, ?_, ⟨⟨ps', qs', hPair₂.symm⟩,
      hCanceled, fun a => ?_, fun a => ?_, fun a => ?_, fun c hc => ?_⟩, fun hNode hIntact => ?_⟩
    · rcases hResult' with hSelects | hTurn
      · exact .kept (hStep hSelects)
      · exact .regularLost hNone hTurn
    · exact (hFields' a).1.trans ((hFields a).1.trans (hPid a))
    · exact (hFields' a).2.1.trans ((hFields a).2.1.trans (hPriority a))
    · exact (hFields' a).2.2.trans ((hFields a).2.2.trans (hDirectory a))
    · exact selects_nonnull hResult' hRegular c hc
    · obtain ⟨hEnds, -⟩ := hServed hNode ((whole_iff hPair.first).mp hIntact.system)
      obtain ⟨hEnds', hSelects⟩ := hServed' (hNode.sublist (hIdle hNone))
        ((whole_iff hPair.second).mp hIntact.regular)
      exact ⟨hStep hSelects, (whole_iff hPair₂.second).mpr hEnds,
        (whole_iff hPair₂.first).mpr hEnds'⟩
  · have hStep : Selects (Ended processes L.ended) L.system r.process l' →
        ListStep processes L (.calculateNext r.process) { L with system := l' } := by
      rintro (hTurn | ⟨-, hNone, -⟩)
      · exact .system hTurn
      · exact absurd hNone hNull
    refine ⟨_, { L with system := l' }, if_pos hNull, ?_, ⟨⟨ps', qs, hPair₁⟩, hCanceled,
      fun a => (hFields a).1.trans (hPid a), fun a => (hFields a).2.1.trans (hPriority a),
      fun a => (hFields a).2.2.trans (hDirectory a), fun c hc => ?_⟩, fun hNode hIntact => ?_⟩
    · rcases hResult with hSelects | hTurn
      · exact .kept (hStep hSelects)
      · exact .systemLost hTurn
    · rcases List.mem_append.mp hc with hMem | hMem
      · exact selects_nonnull hResult hSystem c hMem
      · exact hRegular c hMem
    · obtain ⟨hEnds, hSelects⟩ := hServed hNode ((whole_iff hPair.first).mp hIntact.system)
      exact ⟨hStep hSelects, (whole_iff hPair₁.first).mpr hEnds,
        (whole_iff hPair₁.second).mpr ((whole_iff hPair.second).mp hIntact.regular)⟩

theorem represents_signalEnd (h : Represents processes s L) (pid : Nat) :
    ∃ L', ListStep processes L (.signalEnd pid) L' ∧ Represents processes (signalEnd pid s) L' :=
  ⟨_, .signalEnd pid, h.queues, congrArg (· ++ [pid]) h.canceled, h.pid, h.priority, h.directory,
    h.nonnull⟩

theorem represents_step (h : Represents processes s L) (hStep : SchedulerStep A s e t) :
    ∃ L', Steps A processes s L e t L' := by
  cases hStep with
  | addItem hProcess => exact represents_addItem A h hProcess
  | signalEnd pid =>
    obtain ⟨L', hList, hRep⟩ := represents_signalEnd h pid
    exact ⟨L', .kept hList, hRep, fun _ hIntact => ⟨hList, hIntact.system, hIntact.regular⟩⟩
  | calculateNext hNext =>
    obtain ⟨t', L', hNext', hSteps⟩ := represents_calculateNext A h
    obtain rfl := Option.some.inj (hNext.symm.trans hNext')
    exact ⟨L', hSteps⟩

/-- Every run of the scheduler is a run of the scheduler on lists that loses processes. -/
theorem lossyRun (h : Represents processes s L) (hRun : Run Called s es t) :
    ∃ L', Run (LossyStep processes) L es L' ∧ Represents processes t L' := by
  induction hRun with
  | refl => exact ⟨L, .refl, h⟩
  | tail _ hLast ih =>
    obtain ⟨L', hLossy, hRep⟩ := ih
    obtain ⟨A, hStep⟩ := hLast
    obtain ⟨L'', hSteps⟩ := represents_step hRep hStep
    exact ⟨L'', .tail hLossy hSteps.step, hSteps.represents⟩

/-- If operator `new` has a node for each call, no process is lost. -/
theorem listRun (hRun : Run Served (start heap processes) es s) :
    ∃ L, Run (ListStep processes) .empty es L ∧ Represents processes s L ∧ Intact s := by
  induction hRun with
  | refl =>
    exact ⟨.empty, .refl, represents_start heap processes, intact_start heap processes⟩
  | tail _ hLast ih =>
    obtain ⟨L, hList, hRep, hIntact⟩ := ih
    obtain ⟨A, hSupplied, hStep⟩ := hLast
    obtain ⟨L', hSteps⟩ := represents_step hRep hStep
    obtain ⟨hListStep, hIntact'⟩ := hSteps.served hSupplied hIntact
    exact ⟨L', .tail hList hListStep, hSteps.represents, hIntact'⟩

end Juos.Scheduler
