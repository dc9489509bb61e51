import Juos.Scheduler.Fairness
import Mathlib.Data.List.Induction

/-!
# Pids that were ended too early

`SignalEnd` puts a pid on a list that nothing is ever taken from, and `_IsCanceled` compares the
pid of a process with all of it. A pid that is ended before its process exists is on the list when
the process comes, which is then discarded before its first turn. A run in which this never happens,
and in which operator `new` has a node for each call, is one in which every process that is shut out
was ended after it was added.
-/

namespace Juos.Scheduler

open DataStructures Machine

variable {processes : Nat → KernelProcess} {es pre post : List SchedulerEvent} {L : Lists}
  {heap : NodeHeap Nat} {s t : ProcessScheduler} {p : Nat}

/-! ## Processes that may be selected -/

/-- `p` waits in its queue, and `_FindProcess` does not discard it there. -/
def Eligible (s : ProcessScheduler) (p : Nat) : Prop :=
  Queued s p ∧ isCanceled s.canceledProcesses (s.processes p).pid = false

/-- What was added is shut out from the moment on at which its pid is signaled, or from the start
if that was before. -/
theorem eligible_iff (hRep : Represents processes s L) (hFiled : Filed processes es L)
    (hp : p ∈ added es) : Eligible s p ↔ (processes p).pid ∉ signaled es := by
  have hCanceled : isCanceled s.canceledProcesses (s.processes p).pid = false ↔
      (processes p).pid ∉ signaled es := by
    rw [← Bool.not_eq_true, isCanceled_iff, hRep.canceled, hFiled.ended, hRep.pid]
  constructor
  · rintro ⟨-, hLive⟩
    exact hCanceled.mp hLive
  · intro hLive
    have hMem := mem_queue hFiled.toListed (hFiled.kept p hp hLive)
    exact ⟨(queued_iff hRep).mpr hMem, hCanceled.mpr hLive⟩

/-- The next turn goes to a process that has not ended once all others have. -/
theorem selected_of_last (hRep : Represents processes s L) (hFiled : Filed processes es L)
    (hp : p ∈ added es) (hLive : (processes p).pid ∉ signaled es)
    (hOthers : ∀ q ∈ added es, q ≠ p → (processes q).pid ∈ signaled es) (A : NodeSource) :
    ∃ t, calculateNext A s = some t ∧ t.currentProcess = p := by
  obtain ⟨t, L', hNext, hSteps⟩ := represents_calculateNext A hRep
  refine ⟨t, hNext, ?_⟩
  have hne : t.currentProcess ≠ 0 := by
    rw [selected_iff hRep.nonnull hSteps.step, hFiled.ended]
    exact ⟨p, hFiled.kept p hp hLive, hLive⟩
  obtain ⟨hMem, hTurn⟩ := selected_of_lossy hSteps.step hne
  rw [hFiled.ended] at hTurn
  by_contra hOther
  exact hTurn (hOthers _ (hFiled.mem_added _ hMem) hOther)

/-! ## Ended after it was added -/

/-- `SignalEnd` was called with the pid of `p` after `p` was added. -/
def EndedLater (processes : Nat → KernelProcess) (es : List SchedulerEvent) (p : Nat) : Prop :=
  ∃ pre post, es = pre ++ post ∧ p ∈ added pre ∧ (processes p).pid ∈ signaled post

/-- A process is shut out only if it was ended after it was added. One that was not gets its turn,
at the latest when all others have ended. -/
structure HarmsNobody (processes : Nat → KernelProcess) (es : List SchedulerEvent)
    (s : ProcessScheduler) : Prop where
  eligible : ∀ p ∈ added es, ¬ EndedLater processes es p → Eligible s p
  selected : ∀ p ∈ added es, ¬ EndedLater processes es p →
    (∀ q ∈ added es, q ≠ p → (processes q).pid ∈ signaled es) →
      ∀ A, ∃ t, calculateNext A s = some t ∧ t.currentProcess = p

/-- No process is added with a pid that was signaled before. -/
def NoEarlyEnd (processes : Nat → KernelProcess) (es : List SchedulerEvent) : Prop :=
  ∀ pre p post, es = pre ++ .addItem p :: post → p ∉ added pre → (processes p).pid ∉ signaled pre

theorem NoEarlyEnd.prefix (h : NoEarlyEnd processes (pre ++ post)) : NoEarlyEnd processes pre := by
  rintro a p b rfl
  exact h a p (b ++ post) (by simp)

theorem EndedLater.append (h : EndedLater processes es p) (post : List SchedulerEvent) :
    EndedLater processes (es ++ post) p := by
  obtain ⟨a, b, rfl, hAdded, hSignaled⟩ := h
  refine ⟨a, b ++ post, by simp, hAdded, ?_⟩
  rw [signaled_append]
  exact List.mem_append_left _ hSignaled

/-- If no pid is ended early, each pid that was signaled was so after its process was added. -/
theorem endedLater_of_signaled (h : NoEarlyEnd processes es) (hp : p ∈ added es)
    (hSignaled : (processes p).pid ∈ signaled es) : EndedLater processes es p := by
  induction es using List.reverseRecOn with
  | nil => cases hp
  | append_singleton es e ih =>
    rw [added_append, List.mem_append] at hp
    rw [signaled_append, List.mem_append] at hSignaled
    by_cases hOld : p ∈ added es
    · by_cases hEnded : (processes p).pid ∈ signaled es
      · exact (ih h.prefix hOld hEnded).append [e]
      · exact ⟨es, [e], rfl, hOld, hSignaled.resolve_left hEnded⟩
    · have hNew := hp.resolve_left hOld
      cases e with
      | addItem q =>
        obtain rfl : p = q := by simpa [added] using hNew
        have hEarly := hSignaled.resolve_right (by simp [signaled])
        exact absurd hEarly (h es p [] rfl hOld)
      | signalEnd pid => cases hNew
      | calculateNext q => cases hNew

/-- A pid that was signaled before its process was added has not been since. -/
theorem not_endedLater_of_early (hNew : p ∉ added pre) :
    ¬ EndedLater processes (pre ++ [.addItem p]) p := by
  rintro ⟨a, b, hEq, hAdded, hSignaled⟩
  rcases List.eq_nil_or_concat b with rfl | ⟨b, e, rfl⟩
  · cases hSignaled
  · rw [List.concat_eq_append, ← List.append_assoc] at hEq
    obtain ⟨rfl, -⟩ := List.append_inj' hEq rfl
    rw [added_append] at hNew
    exact hNew (List.mem_append_left _ hAdded)

/-! ## Runs -/

theorem harmsNobody_of_noEarlyEnd (hRun : Run Served (start heap processes) es s)
    (h : NoEarlyEnd processes es) : HarmsNobody processes es s := by
  obtain ⟨L, hList, hRep, -⟩ := listRun hRun
  have hFiled := filed_run hList
  have hLive : ∀ p ∈ added es, ¬ EndedLater processes es p → (processes p).pid ∉ signaled es :=
    fun p hp hNot hSignaled => hNot (endedLater_of_signaled h hp hSignaled)
  constructor
  · intro p hp hNot
    exact (eligible_iff hRep hFiled hp).mpr (hLive p hp hNot)
  · intro p hp hNot hOthers A
    exact selected_of_last hRep hFiled hp (hLive p hp hNot) hOthers A

/-- In the states of a run nobody is harmed exactly when no pid is ended before its process is
added. -/
theorem harmsNobody_throughout_iff (hRun : Run Served (start heap processes) es s) :
    (∀ pre post t, es = pre ++ post → Run Served (start heap processes) pre t →
      HarmsNobody processes pre t) ↔ NoEarlyEnd processes es := by
  constructor
  · rintro hAll pre p post rfl hNew hEarly
    rw [List.append_cons] at hRun
    obtain ⟨t, hPrefix, -⟩ := hRun.split
    obtain ⟨L, hList, hRep, -⟩ := listRun hPrefix
    have hp : p ∈ added (pre ++ [.addItem p]) := by simp [added]
    have hEligible := (hAll _ post t (List.append_cons ..) hPrefix).eligible p hp
      (not_endedLater_of_early hNew)
    rw [eligible_iff hRep (filed_run hList) hp] at hEligible
    apply hEligible
    rw [signaled_append]
    exact List.mem_append_left _ hEarly
  · rintro h pre post t rfl hPrefix
    exact harmsNobody_of_noEarlyEnd hPrefix h.prefix

theorem harmsNobody_two : ∃ s,
    Run Served (start ⟨fun _ => ⟨0, 0⟩, []⟩ twoProcesses)
      [.addItem 4, .addItem 8, .calculateNext 8, .signalEnd 8, .calculateNext 4] s ∧
    ((∀ pre post t, [.addItem 4, .addItem 8, .calculateNext 8, .signalEnd 8, .calculateNext 4] =
        pre ++ post → Run Served (start ⟨fun _ => ⟨0, 0⟩, []⟩ twoProcesses) pre t →
      HarmsNobody twoProcesses pre t) ↔
    NoEarlyEnd twoProcesses
      [.addItem 4, .addItem 8, .calculateNext 8, .signalEnd 8, .calculateNext 4]) := by
  obtain ⟨s, hRun⟩ : ∃ s, Run Served (start ⟨fun _ => ⟨0, 0⟩, []⟩ twoProcesses)
      [.addItem 4, .addItem 8, .calculateNext 8, .signalEnd 8, .calculateNext 4] s :=
    exists_served (by decide +kernel)
  exact ⟨s, hRun, harmsNobody_throughout_iff hRun⟩

/-- The pid 4 is ended, and then a process gets it. It is never selected. -/
theorem not_harmsNobody_of_early : ∃ s,
    Run Served (start ⟨fun _ => ⟨0, 0⟩, []⟩ twoProcesses)
      [.signalEnd 4, .addItem 4, .calculateNext 0] s ∧
    ¬ EndedLater twoProcesses [.signalEnd 4, .addItem 4, .calculateNext 0] 4 ∧
    ¬ HarmsNobody twoProcesses [.signalEnd 4, .addItem 4, .calculateNext 0] s := by
  obtain ⟨s, hRun⟩ : ∃ s, Run Served (start ⟨fun _ => ⟨0, 0⟩, []⟩ twoProcesses)
      [.signalEnd 4, .addItem 4, .calculateNext 0] s :=
    exists_served (by decide +kernel)
  have hNot : ¬ EndedLater twoProcesses [.signalEnd 4, .addItem 4, .calculateNext 0] 4 := by
    rintro ⟨pre, post, hEq, hAdded, hSignaled⟩
    cases pre with
    | nil => cases hAdded
    | cons e pre =>
      have hTail : [.addItem 4, .calculateNext 0] = pre ++ post := (List.cons.inj hEq).2
      have hRest : signaled pre ++ signaled post = [] := by
        rw [← signaled_append, ← hTail]
        rfl
      rw [(List.append_eq_nil_iff.mp hRest).2] at hSignaled
      cases hSignaled
  refine ⟨s, hRun, hNot, fun hHarms => ?_⟩
  obtain ⟨L, hList, hRep, -⟩ := listRun hRun
  have hEligible := hHarms.eligible 4 (by decide) hNot
  rw [eligible_iff hRep (filed_run hList) (by decide)] at hEligible
  exact hEligible (by decide)

end Juos.Scheduler
