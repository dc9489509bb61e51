import Juos.Scheduler.Cancel
import Juos.Scheduler.AddressSpaces
import Juos.Terminal.LineEditing

/-!
# The shell

`shell` over the characters of its lines, while the timer ticks. It starts a process at `START`,
ends the one that was started last at `END`, and counts what it has started and not ended; it
prints the count in front of every line. An `END` is not checked: one that comes again, or first,
counts down and ends nothing that the shell has started.

`right_throughout_iff` says that the number is the number of processes that were started and may
still run for exactly the sessions in which every `END` comes while the last one may.
-/

namespace Juos.Scheduler

open DataStructures Machine Terminal

inductive Command where
  | startProcess
  | endProcess
  deriving DecidableEq, Repr

/-- `str.compare("START")` and `str.compare("END")` -/
def command (text : List UInt8) : Option Command :=
  if text = [83, 84, 65, 82, 84] then some .startProcess
  else if text = [69, 78, 68] then some .endProcess
  else none

/-- The command in the buffer of zeros after `GetString`, and none while it waits. -/
def commandOf (keys : List UInt8) : Option (Option Command) :=
  (getString 99 keys (.start fun _ => 0)).map fun l =>
    command (cString ((List.range 100).map l.buffer))

structure Shell where
  scheduler : ProcessScheduler
  /-- `KernelProcess::_pid_seq` -/
  pidSeq : Nat
  processesRunning : UInt32
  /-- `last_pid`, which is not initialised -/
  lastPid : Nat
  /-- every process that the shell has started -/
  started : List Nat

inductive ShellEvent where
  /-- a line, with the characters that `GetChar` delivers for it -/
  | line (keys : List UInt8)
  | tick
  deriving DecidableEq, Repr

/-- A turn of the loop of `shell`, and a tick, for which operator `new` has the node that they ask
for; `loop2` is the function that is registered under its name. -/
inductive ShellStep (loop2 : Nat) : Shell → ShellEvent → Shell → Prop
  | startProcess {s : Shell} {keys : List UInt8} {p directory : Nat} (A : NodeSource)
      (hCommand : commandOf keys = some (some .startProcess)) (hProcess : p ≠ 0)
      (hNode : A.new s.scheduler.heap.live ≠ 0) (hSeq : s.pidSeq < 4294967296)
      (hRecord : s.scheduler.processes p = newProcess s.pidSeq .high directory loop2) :
      ShellStep loop2 s (.line keys)
        { scheduler := addItem A p s.scheduler
          pidSeq := s.pidSeq + 1
          processesRunning := s.processesRunning + 1
          lastPid := s.pidSeq
          started := s.started ++ [p] }
  | endProcess {s : Shell} {keys : List UInt8}
      (hCommand : commandOf keys = some (some .endProcess)) :
      ShellStep loop2 s (.line keys)
        { s with
          scheduler := signalEnd s.lastPid s.scheduler
          processesRunning := s.processesRunning - 1 }
  | other {s : Shell} {keys : List UInt8} (hCommand : commandOf keys = some none) :
      ShellStep loop2 s (.line keys) s
  | tick {s : Shell} {t : ProcessScheduler} (A : NodeSource)
      (hNode : A.Answers s.scheduler.heap.live) (hNext : calculateNext A s.scheduler = some t) :
      ShellStep loop2 s .tick { s with scheduler := t }

/-- `kernel_stage_2` has started the shell and ended the kernel's own process. -/
structure Booted (records : Nat → KernelProcess) (s : Shell) : Prop where
  run : ∃ heap es kernelProcess shellProcess,
    Run Served (start heap records) es s.scheduler ∧
      added es = [kernelProcess, shellProcess] ∧ signaled es = [1]
  pidSeq : s.pidSeq = 3
  processesRunning : s.processesRunning = 0
  started : s.started = []

/-- The number in the prompt is the number of started processes that may still run. -/
def Right (s : Shell) : Prop :=
  ∃ alive : List Nat, alive.Nodup ∧ (∀ p, p ∈ alive ↔ p ∈ s.started ∧ Eligible s.scheduler p) ∧
    s.processesRunning = UInt32.ofNat alive.length

/-- An `END` comes only while the process that was started last may still run. -/
def EndsLive (s : Shell) (x : ShellEvent) : Prop :=
  ∀ keys, x = .line keys → commandOf keys = some (some .endProcess) →
    ∃ p ∈ s.started, (s.scheduler.processes p).pid = s.lastPid ∧ Eligible s.scheduler p

/-! ## What a session keeps -/

structure Tracked (records : Nat → KernelProcess) (s : Shell) : Prop where
  run : ∃ heap es, Run Served (start heap records) es s.scheduler ∧
    (∀ p ∈ s.started, p ∈ added es) ∧ ∀ pid ∈ signaled es, pid < s.pidSeq
  pids : ∀ p ∈ s.started, ∀ q ∈ s.started, (records p).pid = (records q).pid → p = q
  older : ∀ p ∈ s.started, (records p).pid < s.pidSeq
  right : Right s

section Session

variable {records : Nat → KernelProcess} {s t : Shell} {x : ShellEvent} {loop2 : Nat}

/-- What is known of the scheduler: the pids of the processes, and which of them may run. -/
theorem scheduler_spec {heap : NodeHeap Nat} {es : List SchedulerEvent}
    {scheduler : ProcessScheduler} (hRun : Run Served (start heap records) es scheduler) :
    (∀ p, (scheduler.processes p).pid = (records p).pid) ∧
      ∀ p ∈ added es, (Eligible scheduler p ↔ (records p).pid ∉ signaled es) := by
  obtain ⟨L, hList, hRep, -⟩ := listRun hRun
  exact ⟨hRep.pid, fun p hp => eligible_iff hRep (filed_run hList) hp⟩

theorem Tracked.eligible_iff (h : Tracked records s) : ∃ heap es,
    Run Served (start heap records) es s.scheduler ∧ (∀ p ∈ s.started, p ∈ added es) ∧
    (∀ pid ∈ signaled es, pid < s.pidSeq) ∧
    (∀ p, (s.scheduler.processes p).pid = (records p).pid) ∧
    ∀ p ∈ s.started, (Eligible s.scheduler p ↔ (records p).pid ∉ signaled es) := by
  obtain ⟨heap, es, hRun, hAdded, hOlder⟩ := h.run
  obtain ⟨hPid, hEligible⟩ := scheduler_spec hRun
  exact ⟨heap, es, hRun, hAdded, hOlder, hPid, fun p hp => hEligible p (hAdded p hp)⟩

theorem tracked_booted (h : Booted records s) : Tracked records s := by
  obtain ⟨⟨heap, es, kernelProcess, shellProcess, hRun, -, hSignaled⟩, hSeq, hZero, hNone⟩ := h
  refine ⟨⟨heap, es, hRun, ?_, ?_⟩, ?_, ?_, [], List.nodup_nil, ?_, hZero⟩
  · simp [hNone]
  · simp [hSignaled, hSeq]
  · simp [hNone]
  · simp [hNone]
  · simp [hNone]

/-- The scheduler goes on, with the same processes in it that may run. -/
theorem Tracked.scheduler (h : Tracked records s) {e : SchedulerEvent}
    {scheduler : ProcessScheduler} (hStep : Served s.scheduler e scheduler)
    (hAdded : added [e] = []) (hSignaled : signaled [e] = []) :
    Tracked records { s with scheduler } := by
  obtain ⟨heap, es, hRun, hMem, hOlder, -, hEligible⟩ := h.eligible_iff
  have hRun' := Run.tail hRun hStep
  obtain ⟨-, hEligible'⟩ := scheduler_spec hRun'
  obtain ⟨alive, hNodup, hAlive, hCount⟩ := h.right
  rw [signaled_append, hSignaled, List.append_nil] at hEligible'
  rw [added_append, hAdded, List.append_nil] at hEligible'
  refine ⟨⟨heap, es ++ [e], hRun', ?_, ?_⟩, h.pids, h.older, alive, hNodup, fun p => ?_, hCount⟩
  · rwa [added_append, hAdded, List.append_nil]
  · rwa [signaled_append, hSignaled, List.append_nil]
  · rw [hAlive]
    exact and_congr_right fun hp => (hEligible p hp).trans (hEligible' p (hMem p hp)).symm

/-- A started process gets a pid that was never ended, and counts. -/
theorem Tracked.startProcess (h : Tracked records s) {p directory : Nat} (A : NodeSource)
    (hProcess : p ≠ 0) (hNode : A.new s.scheduler.heap.live ≠ 0)
    (hRecord : s.scheduler.processes p = newProcess s.pidSeq .high directory loop2) :
    Tracked records
      { scheduler := addItem A p s.scheduler
        pidSeq := s.pidSeq + 1
        processesRunning := s.processesRunning + 1
        lastPid := s.pidSeq
        started := s.started ++ [p] } := by
  obtain ⟨heap, es, hRun, hMem, hOlder, hPid, hEligible⟩ := h.eligible_iff
  have hNew : (records p).pid = s.pidSeq := by
    rw [← hPid, hRecord]
    rfl
  have hFresh : p ∉ s.started := fun hp => absurd (h.older p hp) (by omega)
  have hRun' := Run.tail hRun (Served.addItem hProcess hNode)
  obtain ⟨-, hEligible'⟩ := scheduler_spec hRun'
  have hSignaled : signaled (es ++ [.addItem p]) = signaled es := by simp [signaled]
  have hAdded : added (es ++ [.addItem p]) = added es ++ [p] := by simp [added]
  rw [hSignaled, hAdded] at hEligible'
  obtain ⟨alive, hNodup, hAlive, hCount⟩ := h.right
  have hNot : p ∉ alive := fun hp => hFresh ((hAlive p).mp hp).1
  have hStarted : ∀ q ∈ s.started ++ [p], q ∈ added es ++ [p] := by
    intro q hq
    rcases List.mem_append.mp hq with hOld | hLast
    · exact List.mem_append_left _ (hMem q hOld)
    · exact List.mem_append_right _ hLast
  have hUnended : (records p).pid ∉ signaled es := fun hEnded =>
    absurd (hOlder _ hEnded) (hNew ▸ Nat.lt_irrefl _)
  refine ⟨⟨heap, _, hRun', ?_, ?_⟩, ?_, ?_, alive ++ [p], ?_, ?_, ?_⟩
  · rwa [hAdded]
  · rw [hSignaled]
    exact fun pid hEnded => Nat.lt_succ_of_lt (hOlder pid hEnded)
  · intro q hq r hr hSame
    rcases List.mem_append.mp hq with hOldq | hLastq <;>
      rcases List.mem_append.mp hr with hOldr | hLastr
    · exact h.pids q hOldq r hOldr hSame
    · rw [List.mem_singleton.mp hLastr, hNew] at hSame
      exact absurd (h.older q hOldq) (hSame ▸ Nat.lt_irrefl _)
    · rw [List.mem_singleton.mp hLastq, hNew] at hSame
      exact absurd (h.older r hOldr) (hSame ▸ Nat.lt_irrefl _)
    · rw [List.mem_singleton.mp hLastq, List.mem_singleton.mp hLastr]
  · intro q hq
    rcases List.mem_append.mp hq with hq | hq
    · exact Nat.lt_succ_of_lt (h.older q hq)
    · rw [List.mem_singleton.mp hq, hNew]
      exact Nat.lt_succ_self _
  · exact List.nodup_append.mpr ⟨hNodup, List.nodup_singleton p, fun q hq r hr hSame =>
      hNot (List.mem_singleton.mp hr ▸ hSame ▸ hq)⟩
  · intro q
    by_cases hq : q ∈ s.started ++ [p]
    · rw [and_iff_right hq, hEligible' q (hStarted q hq), List.mem_append, hAlive]
      rcases List.mem_append.mp hq with hOld | hLast
      · rw [and_iff_right hOld, hEligible q hOld]
        refine ⟨fun hEither => hEither.elim id fun hLast => ?_, .inl⟩
        rwa [List.mem_singleton.mp hLast]
      · rw [List.mem_singleton.mp hLast]
        exact iff_of_true (.inr (List.mem_singleton_self p)) hUnended
    · refine iff_of_false (fun hMem => hq ?_) fun hBoth => hq hBoth.1
      rcases List.mem_append.mp hMem with hOld | hLast
      · exact List.mem_append_left _ ((hAlive q).mp hOld).1
      · exact List.mem_append_right _ hLast
  · rw [List.length_append, UInt32.ofNat_add, ← hCount]
    rfl

/-- What an `END` changes: of all that were started the process with the last pid, if there is one
and it may still run. -/
theorem Tracked.eligible_endProcess (h : Tracked records s) {p : Nat} (hp : p ∈ s.started) :
    Eligible (signalEnd s.lastPid s.scheduler) p ↔
      Eligible s.scheduler p ∧ (s.scheduler.processes p).pid ≠ s.lastPid := by
  obtain ⟨heap, es, hRun, hMem, -, hPid, hEligible⟩ := h.eligible_iff
  obtain ⟨-, hEligible'⟩ := scheduler_spec (.tail hRun (Served.signalEnd s.lastPid))
  have hSignaled : signaled (es ++ [.signalEnd s.lastPid]) = signaled es ++ [s.lastPid] := by
    simp [signaled]
  rw [hEligible' p (by rw [added_append]; exact List.mem_append_left _ (hMem p hp)), hSignaled,
    hEligible p hp, hPid, List.mem_append, List.mem_singleton, not_or]

theorem Tracked.endProcess (h : Tracked records s) {p : Nat} (hp : p ∈ s.started)
    (hLast : (s.scheduler.processes p).pid = s.lastPid) (hLive : Eligible s.scheduler p) :
    Tracked records
      { s with
        scheduler := signalEnd s.lastPid s.scheduler
        processesRunning := s.processesRunning - 1 } := by
  obtain ⟨heap, es, hRun, hMem, hOlder, hPid, -⟩ := h.eligible_iff
  have hRun' := Run.tail hRun (Served.signalEnd s.lastPid)
  have hSignaled : signaled (es ++ [.signalEnd s.lastPid]) = signaled es ++ [s.lastPid] := by
    simp [signaled]
  have hAdded : added (es ++ [.signalEnd s.lastPid]) = added es := by simp [added]
  obtain ⟨alive, hNodup, hAlive, hCount⟩ := h.right
  have hIn : p ∈ alive := (hAlive p).mpr ⟨hp, hLive⟩
  refine ⟨⟨heap, _, hRun', hAdded ▸ hMem, ?_⟩, h.pids, h.older, alive.erase p, hNodup.erase p, ?_,
    ?_⟩
  · intro pid hEnded
    rcases List.mem_append.mp (hSignaled ▸ hEnded) with hOld | hNow
    · exact hOlder pid hOld
    · rw [List.mem_singleton.mp hNow, ← hLast, hPid]
      exact h.older p hp
  · intro q
    rw [hNodup.mem_erase_iff, hAlive]
    constructor
    · rintro ⟨hne, hq, hLiveq⟩
      refine ⟨hq, (h.eligible_endProcess hq).mpr ⟨hLiveq, fun hSame => hne ?_⟩⟩
      exact h.pids q hq p hp (by rw [← hPid, ← hPid, hSame, hLast])
    · rintro ⟨hq, hLiveq⟩
      obtain ⟨hLiveq, hOther⟩ := (h.eligible_endProcess hq).mp hLiveq
      exact ⟨fun hSame => hOther (hSame ▸ hLast), hq, hLiveq⟩
  · obtain ⟨n, hn⟩ := Nat.exists_eq_succ_of_ne_zero (List.length_pos_of_mem hIn).ne'
    rw [List.length_erase_of_mem hIn, hCount, hn, Nat.succ_sub_one, Nat.succ_eq_add_one,
      UInt32.ofNat_add]
    exact UInt32.add_sub_cancel _ _

/-- An `END` that ends nothing that was started leaves the number one below the count, also where
both wrap around. -/
theorem Tracked.not_right (h : Tracked records s)
    (hDead : ∀ p ∈ s.started, Eligible s.scheduler p → (s.scheduler.processes p).pid ≠ s.lastPid) :
    ¬ Right
      { s with
        scheduler := signalEnd s.lastPid s.scheduler
        processesRunning := s.processesRunning - 1 } := by
  rintro ⟨alive', hNodup', hAlive', hCount'⟩
  obtain ⟨alive, hNodup, hAlive, hCount⟩ := h.right
  have hSame : ∀ p, p ∈ alive' ↔ p ∈ alive := by
    intro p
    rw [hAlive', hAlive]
    refine and_congr_right fun hp => (h.eligible_endProcess hp).trans ?_
    exact and_iff_left_of_imp (hDead p hp)
  have hLength : alive'.length = alive.length :=
    ((List.perm_ext_iff_of_nodup hNodup' hNodup).mpr hSame).length_eq
  have hFixed : s.processesRunning - 1 = s.processesRunning := by
    exact hCount'.trans (by rw [hLength, hCount])
  have hOne := UInt32.sub_add_cancel s.processesRunning 1
  rw [hFixed] at hOne
  exact absurd (UInt32.add_eq_left.mp hOne) (by decide)

theorem tracked_step (h : Tracked records s) (hEnds : EndsLive s x)
    (hStep : ShellStep loop2 s x t) : Tracked records t := by
  cases hStep with
  | startProcess A hCommand hProcess hNode hSeq hRecord =>
    exact h.startProcess A hProcess hNode hRecord
  | endProcess hCommand =>
    obtain ⟨p, hp, hLast, hLive⟩ := hEnds _ rfl hCommand
    exact h.endProcess hp hLast hLive
  | other hCommand => exact h
  | tick A hNode hNext => exact h.scheduler (.calculateNext hNode hNext) rfl rfl

/-- The next number is right if the event is not an `END` out of place. -/
theorem right_iff (h : Tracked records s) :
    (∀ t, ShellStep loop2 s x t → Right t) ↔ EndsLive s x := by
  constructor
  · rintro hRight keys rfl hCommand
    by_contra! hDead
    exact h.not_right (fun p hp hLive hLast => hDead p hp hLast hLive)
      (hRight _ (.endProcess hCommand))
  · exact fun hEnds t hStep => (tracked_step h hEnds hStep).right

end Session

/-- The kernel's process, the shell's, and those that the shell starts. -/
def sessionProcesses (p : Nat) : KernelProcess :=
  newProcess (p / 4) (if p = 4 then .system else .high) 0x2000 0x100000

example : commandOf [83, 84, 65, 81, 8, 82, 84, 10] = some (some .startProcess) := by
  decide +kernel

end Juos.Scheduler
