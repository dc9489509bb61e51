import Juos.Scheduler.ProcessScheduler
import Mathlib.Data.List.Nodup

/-!
# The scheduler refines a two-level round robin

`RoundRobin` states what the scheduler is for: two queues from which nothing is ever removed, the
pids that have ended, and a selection that takes the front-most process that has not ended, system
processes first, and moves it to the back of its queue. `roundRobin_of_run` shows that every run
of the scheduler in which operator `new` has a node for each call is a run of `RoundRobin` with the
same selections, and what follows for the queues in memory: `Listed` says what they hold in every
run, each process in the class of its priority, and `Filed` that they hold every process that was
added and has not ended if no process is lost.
-/

namespace Juos.Scheduler

open DataStructures Machine

/-! ## The round robin -/

structure RoundRobin where
  system : List Nat
  regular : List Nat
  /-- the pids that have ended -/
  ended : List Nat

namespace RoundRobin

def empty : RoundRobin := ⟨[], [], []⟩

/-- The processes of `l` that have not ended. -/
def alive (processes : Nat → KernelProcess) (ended l : List Nat) : List Nat :=
  l.filter fun p => decide ((processes p).pid ∉ ended)

/-- The front-most process of `l` that has not ended. -/
def front (processes : Nat → KernelProcess) (ended l : List Nat) : Option Nat :=
  l.find? fun p => decide ((processes p).pid ∉ ended)

def toBack (p : Nat) (l : List Nat) : List Nat := l.erase p ++ [p]

def addItem (processes : Nat → KernelProcess) (p : Nat) (r : RoundRobin) : RoundRobin :=
  if (processes p).priority = .system then { r with system := r.system ++ [p] }
  else { r with regular := r.regular ++ [p] }

def signalEnd (pid : Nat) (r : RoundRobin) : RoundRobin := { r with ended := r.ended ++ [pid] }

/-- The process selected, null when there is none, and the queues after its turn. -/
def calculateNext (processes : Nat → KernelProcess) (r : RoundRobin) : Nat × RoundRobin :=
  match front processes r.ended r.system, front processes r.ended r.regular with
  | some p, _ => (p, { r with system := toBack p r.system })
  | none, some p => (p, { r with regular := toBack p r.regular })
  | none, none => (0, r)

end RoundRobin

open RoundRobin

inductive RoundRobinStep (processes : Nat → KernelProcess) :
    RoundRobin → SchedulerEvent → RoundRobin → Prop
  | addItem {r : RoundRobin} (p : Nat) :
      RoundRobinStep processes r (.addItem p) (r.addItem processes p)
  | signalEnd {r : RoundRobin} (pid : Nat) :
      RoundRobinStep processes r (.signalEnd pid) (r.signalEnd pid)
  | calculateNext (r : RoundRobin) :
      RoundRobinStep processes r (.calculateNext (r.calculateNext processes).1)
        (r.calculateNext processes).2

theorem roundRobin_addItem {processes : Nat → KernelProcess} {r r' : RoundRobin} {p : Nat}
    (h : RoundRobinStep processes r (.addItem p) r') : r' = r.addItem processes p := by
  cases h
  rfl

theorem roundRobin_selected {processes : Nat → KernelProcess} {r r' : RoundRobin} {p : Nat}
    (h : RoundRobinStep processes r (.calculateNext p) r') :
    p = (r.calculateNext processes).1 := by
  cases h
  rfl

/-! ## Simulation -/

variable {processes : Nat → KernelProcess} {ended l m l' : List Nat} {p q pid : Nat}
  {e : SchedulerEvent} {es pre post : List SchedulerEvent} {L L' : Lists} {r : RoundRobin}

theorem front_eq_head? : front processes ended l = (alive processes ended l).head? := by
  rw [front, alive, List.head?_filter]

theorem alive_eq_nil (hNone : ∀ c ∈ l, Ended processes ended c) : alive processes ended l = [] := by
  apply List.filter_eq_nil_iff.mpr
  intro c hc
  simpa [Ended] using hNone c hc

theorem alive_append : alive processes ended (l ++ m) =
    alive processes ended l ++ alive processes ended m := List.filter_append ..

/-- Ending one more process thins the queues out. -/
theorem alive_signal : alive processes (ended ++ [pid]) l =
    alive processes [pid] (alive processes ended l) := by
  rw [alive, alive, alive, List.filter_filter]
  apply List.filter_congr
  intro c _
  simp [and_comm]

/-- A turn goes to the front-most process, and leaves it at the back. -/
theorem front_of_turn (hTurn : Turn (Ended processes ended) l p l')
    (hSame : alive processes ended l = alive processes ended m) :
    front processes ended m = some p ∧
      alive processes ended l' = alive processes ended (toBack p m) := by
  obtain ⟨before, rest, rfl, hBefore, hLive, rfl⟩ := hTurn
  have hp : alive processes ended [p] = [p] := by
    simpa [alive, Ended] using hLive
  have hCons : alive processes ended m = p :: alive processes ended rest := by
    rw [← hSame, ← List.singleton_append, alive_append, alive_append, alive_eq_nil hBefore, hp]
    rfl
  refine ⟨by rw [front_eq_head?, hCons]; rfl, ?_⟩
  have hErase : alive processes ended (m.erase p) = alive processes ended rest := by
    have hFilter := congrArg (List.erase · p) hCons
    simpa [alive, List.erase_filter] using hFilter
  rw [toBack, alive_append, alive_append, hErase]

theorem front_eq_none (hNone : ∀ c ∈ l, Ended processes ended c)
    (hSame : alive processes ended l = alive processes ended m) :
    front processes ended m = none ∧ alive processes ended [] = alive processes ended m := by
  rw [front_eq_head?, ← hSame, alive_eq_nil hNone]
  exact ⟨rfl, rfl⟩

/-- The queues agree on the processes that have not ended. -/
structure Agrees (processes : Nat → KernelProcess) (L : Lists) (r : RoundRobin) : Prop where
  ended : L.ended = r.ended
  system : alive processes r.ended L.system = alive processes r.ended r.system
  regular : alive processes r.ended L.regular = alive processes r.ended r.regular

theorem agrees_step (h : Agrees processes L r) (hStep : ListStep processes L e L') :
    ∃ r', RoundRobinStep processes r e r' ∧ Agrees processes L' r' := by
  obtain ⟨hEnded, hSystem, hRegular⟩ := h
  cases hStep with
  | @addSystem p _ hClass =>
    refine ⟨_, .addItem p, ?_⟩
    rw [RoundRobin.addItem, if_pos hClass]
    exact ⟨hEnded, by rw [alive_append, alive_append, hSystem], hRegular⟩
  | @addRegular p _ hClass =>
    refine ⟨_, .addItem p, ?_⟩
    rw [RoundRobin.addItem, if_neg hClass]
    exact ⟨hEnded, hSystem, by rw [alive_append, alive_append, hRegular]⟩
  | signalEnd pid =>
    refine ⟨_, .signalEnd pid, congrArg (· ++ [pid]) hEnded, ?_, ?_⟩
    · exact alive_signal.trans ((congrArg _ hSystem).trans alive_signal.symm)
    · exact alive_signal.trans ((congrArg _ hRegular).trans alive_signal.symm)
  | @system p queue hTurn =>
    rw [hEnded] at hTurn
    obtain ⟨hFront, hQueue⟩ := front_of_turn hTurn hSystem
    have hNext : r.calculateNext processes = (p, { r with system := toBack p r.system }) := by
      rw [RoundRobin.calculateNext, hFront]
    refine ⟨{ r with system := toBack p r.system }, ?_, hEnded, hQueue, hRegular⟩
    have hStep : RoundRobinStep processes r _ _ := .calculateNext r
    rwa [hNext] at hStep
  | @regular p queue hNone hTurn =>
    rw [hEnded] at hTurn hNone
    obtain ⟨hEmpty, hSystem'⟩ := front_eq_none hNone hSystem
    obtain ⟨hFront, hQueue⟩ := front_of_turn hTurn hRegular
    have hNext : r.calculateNext processes = (p, { r with regular := toBack p r.regular }) := by
      rw [RoundRobin.calculateNext, hEmpty, hFront]
    refine ⟨{ r with regular := toBack p r.regular }, ?_, hEnded, hSystem', hQueue⟩
    have hStep : RoundRobinStep processes r _ _ := .calculateNext r
    rwa [hNext] at hStep
  | idle hNone hNone' =>
    rw [hEnded] at hNone hNone'
    obtain ⟨hEmpty, hSystem'⟩ := front_eq_none hNone hSystem
    obtain ⟨hEmpty', hRegular'⟩ := front_eq_none hNone' hRegular
    have hNext : r.calculateNext processes = (0, r) := by
      rw [RoundRobin.calculateNext, hEmpty, hEmpty']
    refine ⟨r, ?_, hEnded, hSystem', hRegular'⟩
    have hStep : RoundRobinStep processes r _ _ := .calculateNext r
    rwa [hNext] at hStep

theorem agrees_run (hRun : Run (ListStep processes) .empty es L) :
    ∃ r, Run (RoundRobinStep processes) .empty es r ∧ Agrees processes L r := by
  induction hRun with
  | refl => exact ⟨.empty, .refl, rfl, rfl, rfl⟩
  | tail _ hLast ih =>
    obtain ⟨r, hRun, hAgrees⟩ := ih
    obtain ⟨r', hStep, hAgrees'⟩ := agrees_step hAgrees hLast
    exact ⟨r', .tail hRun hStep, hAgrees'⟩

/-! ## What is queued -/

@[simp] theorem added_append : added (pre ++ post) = added pre ++ added post :=
  List.filterMap_append ..

@[simp] theorem signaled_append : signaled (pre ++ post) = signaled pre ++ signaled post :=
  List.filterMap_append ..

/-- The queues hold what was added, each process in its class. -/
structure Listed (processes : Nat → KernelProcess) (es : List SchedulerEvent) (L : Lists) :
    Prop where
  ended : L.ended = signaled es
  mem_added : ∀ p ∈ L.system ++ L.regular, p ∈ added es
  system : ∀ p ∈ L.system, (processes p).priority = .system
  regular : ∀ p ∈ L.regular, (processes p).priority ≠ .system
  nonnull : ∀ p ∈ L.system ++ L.regular, p ≠ 0

/-- Each process is queued at most once. -/
structure Distinct (processes : Nat → KernelProcess) (es : List SchedulerEvent) (L : Lists) :
    Prop extends Listed processes es L where
  nodup : (L.system ++ L.regular).Nodup

/-- What was added and has not ended is queued. -/
structure Filed (processes : Nat → KernelProcess) (es : List SchedulerEvent) (L : Lists) :
    Prop extends Listed processes es L where
  kept : ∀ p ∈ added es, ¬ Ended processes (signaled es) p → p ∈ L.system ++ L.regular

theorem turn_subperm {ended : Nat → Prop} (hTurn : Turn ended l p l') : l'.Subperm l := by
  obtain ⟨before, rest, rfl, -, -, rfl⟩ := hTurn
  exact (List.perm_append_singleton p rest).subperm.trans (List.sublist_append_right ..).subperm

theorem lost_subperm {ended : Nat → Prop} (hTurn : Turn ended l p (l' ++ [p])) :
    l'.Subperm l :=
  (List.sublist_append_left ..).subperm.trans (turn_subperm hTurn)

/-- A turn drops who has ended. -/
theorem mem_of_turn_of_mem {ended : Nat → Prop} (hTurn : Turn ended l p l') (hq : q ∈ l)
    (hLive : ¬ ended q) : q ∈ l' := by
  obtain ⟨before, rest, rfl, hBefore, -, rfl⟩ := hTurn
  have hBehind := (List.mem_append.mp hq).resolve_left fun hMem => hLive (hBefore q hMem)
  exact (List.perm_append_singleton p rest).symm.subset hBehind

theorem perm_addSystem (L : Lists) (p : Nat) :
    (L.system ++ [p] ++ L.regular).Perm (p :: (L.system ++ L.regular)) := by
  rw [List.append_assoc]
  exact List.perm_middle

theorem perm_addRegular (L : Lists) (p : Nat) :
    (L.system ++ (L.regular ++ [p])).Perm (p :: (L.system ++ L.regular)) := by
  rw [← List.append_assoc]
  exact List.perm_append_singleton ..

/-- A step queues the process that is added, if any, and no process twice. -/
theorem lossy_subperm (hStep : LossyStep processes L e L') :
    (L'.system ++ L'.regular).Subperm (added [e] ++ (L.system ++ L.regular)) := by
  have hNil : ∀ l : List Nat, ([] : List Nat).Subperm l := fun l => (List.nil_sublist l).subperm
  cases hStep with
  | kept hStep =>
    cases hStep with
    | @addSystem p => exact (perm_addSystem L p).subperm
    | @addRegular p => exact (perm_addRegular L p).subperm
    | signalEnd pid => exact .refl _
    | system hTurn => exact (turn_subperm hTurn).append (.refl _)
    | regular hNone hTurn =>
      have hBoth := (hNil L.system).append (turn_subperm hTurn)
      exact hBoth
    | idle => exact hNil _
  | @lost p => exact (List.sublist_append_right [p] _).subperm
  | systemLost hTurn => exact (lost_subperm hTurn).append (.refl _)
  | regularLost hNone hTurn =>
    have hBoth := (hNil L.system).append (lost_subperm hTurn)
    exact hBoth

/-- Nobody gets into a queue but the process that is added, which gets into that of its class. -/
theorem mem_of_lossy (hStep : LossyStep processes L e L') :
    (∀ q ∈ L'.system, q ∈ L.system ∨
      e = .addItem q ∧ q ≠ 0 ∧ (processes q).priority = .system) ∧
    (∀ q ∈ L'.regular, q ∈ L.regular ∨
      e = .addItem q ∧ q ≠ 0 ∧ (processes q).priority ≠ .system) := by
  cases hStep with
  | kept hStep =>
    cases hStep with
    | @addSystem p hProcess hClass =>
      refine ⟨fun q hq => (List.mem_append.mp hq).imp_right fun hLast => ?_, fun q hq => .inl hq⟩
      obtain rfl := List.mem_singleton.mp hLast
      exact ⟨rfl, hProcess, hClass⟩
    | @addRegular p hProcess hClass =>
      refine ⟨fun q hq => .inl hq, fun q hq => (List.mem_append.mp hq).imp_right fun hLast => ?_⟩
      obtain rfl := List.mem_singleton.mp hLast
      exact ⟨rfl, hProcess, hClass⟩
    | signalEnd pid => exact ⟨fun q hq => .inl hq, fun q hq => .inl hq⟩
    | system hTurn =>
      exact ⟨fun q hq => .inl ((turn_subperm hTurn).subset hq), fun q hq => .inl hq⟩
    | regular hNone hTurn =>
      exact ⟨fun q hq => (nomatch hq), fun q hq => .inl ((turn_subperm hTurn).subset hq)⟩
    | idle => exact ⟨fun q hq => (nomatch hq), fun q hq => (nomatch hq)⟩
  | lost => exact ⟨fun q hq => .inl hq, fun q hq => .inl hq⟩
  | systemLost hTurn =>
    exact ⟨fun q hq => .inl ((lost_subperm hTurn).subset hq), fun q hq => .inl hq⟩
  | regularLost hNone hTurn =>
    exact ⟨fun q hq => (nomatch hq), fun q hq => .inl ((lost_subperm hTurn).subset hq)⟩

theorem ended_of_lossy (hStep : LossyStep processes L e L') :
    L'.ended = L.ended ++ signaled [e] := by
  cases hStep with
  | kept hStep => cases hStep <;> simp [signaled]
  | lost => simp [signaled]
  | systemLost => simp [signaled]
  | regularLost => simp [signaled]

theorem listed_step (h : Listed processes es L) (hStep : LossyStep processes L e L') :
    Listed processes (es ++ [e]) L' := by
  obtain ⟨hSystem, hRegular⟩ := mem_of_lossy hStep
  have hMem : ∀ q ∈ L'.system ++ L'.regular, q ∈ L.system ++ L.regular ∨
      e = .addItem q ∧ q ≠ 0 := by
    intro q hq
    rcases List.mem_append.mp hq with hq | hq
    · exact (hSystem q hq).imp (List.mem_append_left _) fun hNew => ⟨hNew.1, hNew.2.1⟩
    · exact (hRegular q hq).imp (List.mem_append_right _) fun hNew => ⟨hNew.1, hNew.2.1⟩
  refine ⟨?_, fun q hq => ?_, fun q hq => ?_, fun q hq => ?_, fun q hq => ?_⟩
  · rw [ended_of_lossy hStep, h.ended, signaled_append]
  · rw [added_append, List.mem_append]
    refine (hMem q hq).imp (h.mem_added q) ?_
    rintro ⟨rfl, -⟩
    simp [added]
  · exact (hSystem q hq).elim (h.system q) fun hNew => hNew.2.2
  · exact (hRegular q hq).elim (h.regular q) fun hNew => hNew.2.2
  · exact (hMem q hq).elim (h.nonnull q) fun hNew => hNew.2

theorem listed_empty : Listed processes [] .empty :=
  ⟨rfl, fun _ hp => (nomatch hp), fun _ hp => (nomatch hp), fun _ hp => (nomatch hp),
    fun _ hp => (nomatch hp)⟩

theorem distinct_step (h : Distinct processes es L) (hStep : LossyStep processes L e L')
    (hNodup : (added (es ++ [e])).Nodup) : Distinct processes (es ++ [e]) L' := by
  refine ⟨listed_step h.toListed hStep, ?_⟩
  have hBoth : (added [e] ++ (L.system ++ L.regular)).Nodup := by
    rw [added_append] at hNodup
    obtain ⟨-, hNew, hApart⟩ := List.nodup_append.mp hNodup
    refine List.nodup_append.mpr ⟨hNew, h.nodup, fun c hc d hd hEq => ?_⟩
    exact hApart d (h.mem_added d hd) c hc hEq.symm
  obtain ⟨l, hPerm, hSub⟩ := lossy_subperm hStep
  exact hPerm.nodup (hBoth.sublist hSub)

theorem distinct_run (h : Distinct processes pre L) (hRun : Run (LossyStep processes) L es L')
    (hNodup : (added (pre ++ es)).Nodup) : Distinct processes (pre ++ es) L' := by
  induction hRun with
  | refl => rwa [List.append_nil]
  | tail _ hLast ih =>
    rw [← List.append_assoc] at hNodup ⊢
    refine distinct_step (ih ?_) hLast hNodup
    rw [added_append] at hNodup
    exact (List.nodup_append.mp hNodup).1

theorem distinct_empty : Distinct processes [] .empty := ⟨listed_empty, List.nodup_nil⟩

theorem filed_step (h : Filed processes es L) (hStep : ListStep processes L e L') :
    Filed processes (es ++ [e]) L' := by
  refine ⟨listed_step h.toListed (.kept hStep), fun q hq hLive => ?_⟩
  rw [added_append, List.mem_append] at hq
  rw [Ended, signaled_append, List.mem_append, not_or] at hLive
  have hOld : q ∈ added es → q ∈ L.system ++ L.regular := fun hMem => h.kept q hMem hLive.1
  have hLive' : ¬ Ended processes L.ended q := by
    rw [h.ended]
    exact hLive.1
  cases hStep with
  | @addSystem p =>
    exact (perm_addSystem L p).symm.subset (List.mem_cons.mpr (hq.symm.imp (by simp [added]) hOld))
  | @addRegular p =>
    exact (perm_addRegular L p).symm.subset
      (List.mem_cons.mpr (hq.symm.imp (by simp [added]) hOld))
  | signalEnd pid => exact hOld (hq.resolve_right (by simp [added]))
  | system hTurn =>
    refine List.mem_append.mpr ((List.mem_append.mp (hOld (hq.resolve_right (by simp [added])))).imp
      (fun hMem => ?_) id)
    exact mem_of_turn_of_mem hTurn hMem hLive'
  | regular hNone hTurn =>
    refine List.mem_append.mpr ((List.mem_append.mp (hOld (hq.resolve_right (by simp [added])))).imp
      (fun hMem => ?_) fun hMem => ?_)
    · exact absurd (hNone q hMem) hLive'
    · exact mem_of_turn_of_mem hTurn hMem hLive'
  | idle hNone hNone' =>
    have hEnded := (List.mem_append.mp (hOld (hq.resolve_right (by simp [added])))).elim (hNone q)
      (hNone' q)
    exact absurd hEnded hLive'

theorem filed_empty : Filed processes [] .empty := ⟨listed_empty, fun _ hp => (nomatch hp)⟩

theorem filed_run (hRun : Run (ListStep processes) .empty es L) : Filed processes es L := by
  induction hRun with
  | refl => exact filed_empty
  | tail _ hLast ih => exact filed_step ih hLast

/-- Somebody queued has a turn, or all that is queued has ended. -/
theorem turn_or_idle (hStep : LossyStep processes L (.calculateNext p) L') :
    (∃ l k, Turn (Ended processes L.ended) l p k ∧ ∀ c ∈ l, c ∈ L.system ++ L.regular) ∨
      p = 0 ∧ ∀ c ∈ L.system ++ L.regular, Ended processes L.ended c := by
  have hSystem : ∀ c ∈ L.system, c ∈ L.system ++ L.regular := fun c => List.mem_append_left _
  have hRegular : ∀ c ∈ L.regular, c ∈ L.system ++ L.regular := fun c => List.mem_append_right _
  cases hStep with
  | kept hStep =>
    cases hStep with
    | system hTurn => exact Or.inl ⟨_, _, hTurn, hSystem⟩
    | regular hNone hTurn => exact Or.inl ⟨_, _, hTurn, hRegular⟩
    | idle hNone hNone' =>
      exact Or.inr ⟨rfl, fun c hc => (List.mem_append.mp hc).elim (hNone c) (hNone' c)⟩
  | systemLost hTurn => exact Or.inl ⟨_, _, hTurn, hSystem⟩
  | regularLost hNone hTurn => exact Or.inl ⟨_, _, hTurn, hRegular⟩

/-- Who is selected was queued and has not ended. -/
theorem selected_of_lossy (hStep : LossyStep processes L (.calculateNext p) L') (hp : p ≠ 0) :
    p ∈ L.system ++ L.regular ∧ ¬ Ended processes L.ended p := by
  rcases turn_or_idle hStep with ⟨l, k, ⟨front, rest, rfl, -, hLive, -⟩, hSub⟩ | ⟨hNull, -⟩
  · exact ⟨hSub p (by simp), hLive⟩
  · exact absurd hNull hp

/-- When nobody is selected, all that is queued has ended. -/
theorem ended_of_idle (hNonnull : ∀ c ∈ L.system ++ L.regular, c ≠ 0)
    (hStep : LossyStep processes L (.calculateNext 0) L') :
    ∀ c ∈ L.system ++ L.regular, Ended processes L.ended c := by
  rcases turn_or_idle hStep with ⟨l, k, ⟨front, rest, rfl, -⟩, hSub⟩ | ⟨-, hAll⟩
  · exact absurd rfl (hNonnull 0 (hSub 0 (by simp)))
  · exact hAll

/-- Somebody is selected as long as somebody queued has not ended. -/
theorem selected_iff (hNonnull : ∀ c ∈ L.system ++ L.regular, c ≠ 0)
    (hStep : LossyStep processes L (.calculateNext p) L') :
    p ≠ 0 ↔ ∃ q ∈ L.system ++ L.regular, ¬ Ended processes L.ended q := by
  constructor
  · intro hp
    obtain ⟨hMem, hLive⟩ := selected_of_lossy hStep hp
    exact ⟨p, hMem, hLive⟩
  · rintro ⟨q, hMem, hLive⟩ rfl
    exact hLive (ended_of_idle hNonnull hStep q hMem)

theorem selected_ne_zero_iff (h : Filed processes es L)
    (hStep : ListStep processes L (.calculateNext p) L') :
    p ≠ 0 ↔ ∃ q ∈ added es, (processes q).pid ∉ signaled es := by
  rw [selected_iff h.nonnull (.kept hStep), h.ended]
  constructor
  · rintro ⟨q, hMem, hLive⟩
    exact ⟨q, h.mem_added q hMem, hLive⟩
  · rintro ⟨q, hAdded, hLive⟩
    exact ⟨q, h.kept q hAdded hLive, hLive⟩

/-! ## The refinement -/

variable {heap : NodeHeap Nat} {s : ProcessScheduler}

/-- The state `s` after the calls `es` holds the lists `L`, and the round robin is at `r` after the
same calls with the same selections. -/
structure RefinesRoundRobin (processes : Nat → KernelProcess) (es : List SchedulerEvent)
    (s : ProcessScheduler) (L : Lists) (r : RoundRobin) : Prop where
  represents : Represents processes s L
  run : Run (RoundRobinStep processes) .empty es r
  agrees : Agrees processes L r
  once : ∀ p ∈ added es, (processes p).pid ∉ signaled es →
    (L.system ++ L.regular).count p = 1 ∧ (p ∈ L.system ↔ (processes p).priority = .system)
  dropped : ∀ p ∈ added es, p ∉ L.system ++ L.regular → (processes p).pid ∈ signaled es
  queued : ∀ p ∈ L.system ++ L.regular, p ∈ added es
  live : ∀ pre p post, es = pre ++ .calculateNext p :: post → p ≠ 0 →
    (processes p).pid ∉ signaled pre
  returns : ∀ A, (calculateNext A s).isSome = true

/-- Every run of the scheduler whose calls get the nodes that they ask operator `new` for is a run
of the round robin with the same selections, and its queues hold what the round robin has not
ended. -/
theorem roundRobin_of_run (hRun : Run Served (start heap processes) es s)
    (hPids : ((added es).map fun p => (processes p).pid).Nodup) :
    ∃ L r, RefinesRoundRobin processes es s L r := by
  obtain ⟨L, hList, hRep, -⟩ := listRun hRun
  obtain ⟨r, hRoundRobin, hAgrees⟩ := agrees_run hList
  have hNodup : (added es).Nodup := List.Nodup.of_map _ hPids
  have hFiled := filed_run hList
  have hLossy := hList.mono fun _ _ _ => LossyStep.kept
  have hDistinct : Distinct processes ([] ++ es) L := distinct_run distinct_empty hLossy hNodup
  rw [List.nil_append] at hDistinct
  refine ⟨L, r, hRep, hRoundRobin, hAgrees, fun p hp hLive => ⟨?_, ?_⟩, fun p hp hGone => ?_,
    hFiled.mem_added, ?_, fun A => ?_⟩
  · exact List.count_eq_one_of_mem hDistinct.nodup (hFiled.kept p hp hLive)
  · refine ⟨hFiled.system p, fun hClass => ?_⟩
    apply (List.mem_append.mp (hFiled.kept p hp hLive)).resolve_right
    intro hMem
    exact hFiled.regular p hMem hClass
  · by_contra hLive
    exact hGone (hFiled.kept p hp hLive)
  · rintro pre p post rfl hp
    rw [List.append_cons] at hList
    obtain ⟨L', hPrefix, -⟩ := hList.split
    obtain ⟨M, hPre, hSelect⟩ := hPrefix.of_append
    have hEnded := (filed_run hPre).ended
    obtain ⟨-, hLive⟩ := selected_of_lossy (.kept hSelect) hp
    rwa [Ended, hEnded] at hLive
  · obtain ⟨t, -, hNext, -⟩ := represents_calculateNext A hRep
    rw [hNext, Option.isSome_some]

/-- Every process has its address as pid; the one at 8 is a system process. -/
def twoProcesses (p : Nat) : KernelProcess :=
  ⟨p, if p = 8 then .system else .regular, 0, 0, ⟨0, 0, 0⟩⟩

theorem roundRobin_two : ∃ s,
    Run Served (start ⟨fun _ => ⟨0, 0⟩, []⟩ twoProcesses)
      [.addItem 4, .addItem 8, .calculateNext 8, .signalEnd 8, .calculateNext 4] s ∧
    ∃ L r, RefinesRoundRobin twoProcesses
      [.addItem 4, .addItem 8, .calculateNext 8, .signalEnd 8, .calculateNext 4] s L r := by
  obtain ⟨s, hRun⟩ : ∃ s, Run Served (start ⟨fun _ => ⟨0, 0⟩, []⟩ twoProcesses)
      [.addItem 4, .addItem 8, .calculateNext 8, .signalEnd 8, .calculateNext 4] s :=
    exists_served (by decide +kernel)
  exact ⟨s, hRun, roundRobin_of_run hRun (by decide)⟩

/-- The memory when all small blocks are in use. -/
def fullHeap : NodeHeap Nat := ⟨fun _ => ⟨0, 0⟩, smallBlocks⟩

/-- A process that is added while every small block is in use is never selected. -/
theorem not_roundRobin_of_full : ∃ s,
    Run Called (start fullHeap twoProcesses) [.addItem 4, .calculateNext 0] s ∧
    ((added [.addItem 4, .calculateNext 0]).map fun p => (twoProcesses p).pid).Nodup ∧
    ¬ ∃ L r, RefinesRoundRobin twoProcesses [.addItem 4, .calculateNext 0] s L r := by
  have hSome : (([.addItem 4, .calculateNext 0] : List SchedulerEvent).foldlM (call kernelPool)
      (start fullHeap twoProcesses)).isSome = true := by
    decide +kernel
  obtain ⟨s, hs⟩ := Option.isSome_iff_exists.mp hSome
  have hRun : Run Called (start fullHeap twoProcesses) [.addItem 4, .calculateNext 0] s :=
    Run.of_foldlM (fun _ _ _ hCall => ⟨kernelPool, schedulerStep_of_call hCall⟩) hs
  refine ⟨s, hRun, by decide, ?_⟩
  rintro ⟨L, r, hRefines⟩
  obtain ⟨r₁, hFirst, hRest⟩ := hRefines.run.of_cons
  obtain ⟨r₂, hLast, -⟩ := hRest.of_cons
  obtain rfl := roundRobin_addItem hFirst
  exact absurd (roundRobin_selected hLast) (by decide)

end Juos.Scheduler
