import Juos.Machine.Run

/-!
# Round robin with members that end

A queue of members, some of which have ended. A turn goes to the first member that has not ended;
the members before it are dropped and it moves to the back, unless it is lost then. A member that
joins may be lost as well. Members that have ended may also be dropped from the front at any other
time, and more of them may end.

`Rota.fair` is the fairness of the rotation: between two turns of the same member no other one has
more than one, and each one that was queued and has not ended has exactly one. The proof follows
the queue as `before ++ p :: behind`: whoever has had a turn since `p` is behind it.
-/

namespace Machine

universe u

variable {α : Type u}

/-- The turn of `p`: `l'` is the queue after it. -/
def Turn (ended : α → Prop) (l : List α) (p : α) (l' : List α) : Prop :=
  ∃ front rest, l = front ++ p :: rest ∧ (∀ c ∈ front, ended c) ∧ ¬ ended p ∧ l' = rest ++ [p]

structure Rota (α : Type u) where
  queue : List α
  ended : α → Prop

inductive RotaEvent (α : Type u) where
  | join (a : α)
  | turn (a : α)
  | other
  deriving DecidableEq

inductive RotaStep : Rota α → RotaEvent α → Rota α → Prop
  | join {r : Rota α} {a : α} (hNew : a ∉ r.queue) :
      RotaStep r (.join a) { r with queue := r.queue ++ [a] }
  | away {r : Rota α} (a : α) : RotaStep r (.join a) r
  | turn {r : Rota α} {a : α} {l : List α} (hTurn : Turn r.ended r.queue a l) :
      RotaStep r (.turn a) { r with queue := l }
  /-- the member that had the turn is not put back -/
  | lost {r : Rota α} {a : α} {l : List α} (hTurn : Turn r.ended r.queue a (l ++ [a])) :
      RotaStep r (.turn a) { r with queue := l }
  | other {r : Rota α} {front l : List α} {ended : α → Prop} (hMono : ∀ c, r.ended c → ended c)
      (hQueue : r.queue = front ++ l) (hFront : ∀ c ∈ front, ended c) :
      RotaStep r .other ⟨l, ended⟩

namespace RotaStep

variable {r : Rota α}

theorem stay : RotaStep r .other r :=
  .other (l := r.queue) (fun _ h => h) (List.nil_append _).symm fun _ hc => nomatch hc

/-- More members end. -/
theorem more {ended : α → Prop} (hMono : ∀ c, r.ended c → ended c) :
    RotaStep r .other { r with ended := ended } :=
  .other (l := r.queue) hMono (List.nil_append _).symm fun _ hc => nomatch hc

/-- When all have ended the queue may be emptied. -/
theorem clear (hAll : ∀ c ∈ r.queue, r.ended c) : RotaStep r .other { r with queue := [] } :=
  .other (fun _ h => h) (List.append_nil _).symm hAll

end RotaStep

namespace Rota

variable {r s t : Rota α} {es : List (RotaEvent α)} {e : RotaEvent α} {p : α}
  {l rest front before behind : List α}

theorem ended_mono (h : RotaStep s e t) {c : α} (hEnded : s.ended c) : t.ended c := by
  cases h with
  | join => exact hEnded
  | away => exact hEnded
  | turn => exact hEnded
  | lost => exact hEnded
  | other hMono => exact hMono c hEnded

theorem nodup_turn {ended : α → Prop} (hTurn : Turn ended l p rest) (hNodup : l.Nodup) :
    rest.Nodup := by
  obtain ⟨front, rest, rfl, -, -, rfl⟩ := hTurn
  obtain ⟨hNot, hRest⟩ := List.nodup_cons.mp (List.nodup_append.mp hNodup).2.1
  refine List.nodup_append.mpr ⟨hRest, List.pairwise_singleton .., fun c hc b hb => ?_⟩
  rw [List.mem_singleton.mp hb]
  rintro rfl
  exact hNot hc

theorem nodup_step (h : RotaStep s e t) (hNodup : s.queue.Nodup) : t.queue.Nodup := by
  cases h with
  | join hNew =>
    refine List.nodup_append.mpr ⟨hNodup, List.pairwise_singleton .., fun c hc b hb => ?_⟩
    rw [List.mem_singleton.mp hb]
    rintro rfl
    exact hNew hc
  | away => exact hNodup
  | turn hTurn => exact nodup_turn hTurn hNodup
  | lost hTurn => exact (List.nodup_append.mp (nodup_turn hTurn hNodup)).1
  | other _ hQueue =>
    rw [hQueue] at hNodup
    exact (List.nodup_append.mp hNodup).2.1

/-- What lies in front of a member that is still there is part of what lay before it. -/
theorem split_before {x : List α} (h : before ++ p :: behind = front ++ x) (hp : p ∉ front) :
    ∃ mid, before = front ++ mid ∧ x = mid ++ p :: behind := by
  rcases List.append_eq_append_iff.mp h with ⟨y, hFront, hRest⟩ | ⟨y, hBefore, hRest⟩
  · cases y with
    | nil =>
      rw [List.append_nil] at hFront
      exact ⟨[], by rw [hFront, List.append_nil], hRest.symm⟩
    | cons b y =>
      refine absurd ?_ hp
      rw [hFront, (List.cons.inj hRest).1]
      exact List.mem_append_right _ List.mem_cons_self
  · exact ⟨y, hBefore, hRest⟩

variable [DecidableEq α]

/-- The state of a rotation since the last turn of `p`, with `rest` the members queued then. -/
structure Since (p : α) (rest : List α) (es : List (RotaEvent α)) (t : Rota α)
    (before behind : List α) : Prop where
  queue : t.queue = before ++ p :: behind
  waiting : ∀ q ∈ before, es.count (.turn q) = 0
  once : ∀ q, es.count (.turn q) ≤ 1
  served : ∀ q ∈ rest, ¬ t.ended q → q ∈ before ∨ es.count (.turn q) = 1

theorem count_turn_of_ne {q : α} (hne : e ≠ .turn q) :
    (es ++ [e]).count (.turn q) = es.count (.turn q) := by
  rw [List.count_append, List.count_singleton, if_neg (by simpa using hne), Nat.add_zero]

/-- The members in front of `p` leave. -/
theorem since_other {mid : List α} {ended : α → Prop}
    (h : Since p rest es s (front ++ mid) behind) (hMono : ∀ c, s.ended c → ended c)
    (hFront : ∀ c ∈ front, ended c) :
    Since p rest (es ++ [.other]) ⟨mid ++ p :: behind, ended⟩ mid behind where
  queue := rfl
  waiting q hq := by
    rw [count_turn_of_ne (by simp)]
    exact h.waiting q (List.mem_append_right _ hq)
  once q := by
    rw [count_turn_of_ne (by simp)]
    exact h.once q
  served q hq hLive := by
    rw [count_turn_of_ne (by simp)]
    rcases h.served q hq fun hEnded => hLive (hMono q hEnded) with hBefore | hServed
    · exact Or.inl ((List.mem_append.mp hBefore).resolve_left fun hMem => hLive (hFront q hMem))
    · exact Or.inr hServed

/-- The turn goes to a member that waits before `p`; `back` is that member, or nothing if it is
lost. -/
theorem since_turn {a : α} {mid : List α} (back : List α)
    (h : Since p rest es s (front ++ a :: mid) behind) (hNodup : s.queue.Nodup)
    (hFront : ∀ c ∈ front, s.ended c) :
    Since p rest (es ++ [.turn a]) { s with queue := mid ++ p :: behind ++ back } mid
      (behind ++ back) := by
  have hOnce : (es ++ [RotaEvent.turn a]).count (.turn a) = 1 := by
    rw [List.count_append, h.waiting a (by simp), List.count_singleton_self]
  have hCount : ∀ {q}, q ≠ a → (es ++ [RotaEvent.turn a]).count (.turn q) = es.count (.turn q) :=
    fun hqa => count_turn_of_ne fun hEq => hqa (RotaEvent.turn.inj hEq).symm
  constructor
  case queue => simp
  case waiting =>
    intro q hq
    have hqa : q ≠ a := by
      rintro rfl
      rw [h.queue] at hNodup
      have hSplit := (List.nodup_append.mp (List.nodup_append.mp hNodup).1).2.1
      exact (List.nodup_cons.mp hSplit).1 hq
    rw [hCount hqa]
    exact h.waiting q (by simp [hq])
  case once =>
    intro q
    by_cases hqa : q = a
    · rw [hqa]
      exact Nat.le_of_eq hOnce
    · rw [hCount hqa]
      exact h.once q
  case served =>
    intro q hq hLive
    by_cases hqa : q = a
    · exact Or.inr (hqa ▸ hOnce)
    · rw [hCount hqa]
      apply (h.served q hq hLive).imp_left
      intro hMem
      rcases List.mem_append.mp hMem with hEnded | hMid
      · exact absurd (hFront q hEnded) hLive
      · exact (List.mem_cons.mp hMid).resolve_left hqa

/-- Who has a turn waits before `p`. -/
theorem since_front {a : α} (h : Since p rest es s before behind)
    (hNot : RotaEvent.turn a ≠ .turn p)
    (hLive : ¬ s.ended p) (hTurn : Turn s.ended s.queue a l) :
    ∃ front mid, before = front ++ a :: mid ∧ l = mid ++ p :: behind ++ [a] ∧
      ∀ c ∈ front, s.ended c := by
  obtain ⟨front, rest', hQueue, hFront, -, rfl⟩ := hTurn
  obtain ⟨mid, rfl, hRest⟩ := split_before (h.queue.symm.trans hQueue)
    fun hMem => hLive (hFront p hMem)
  have hap : a ≠ p := fun hEq => hNot (hEq ▸ rfl)
  cases mid with
  | nil => exact absurd (List.cons.inj hRest).1 hap
  | cons b mid =>
    obtain ⟨rfl, rfl⟩ := List.cons.inj hRest
    exact ⟨front, mid, rfl, rfl, hFront⟩

theorem since_step (h : Since p rest es s before behind) (hNodup : s.queue.Nodup)
    (hStep : RotaStep s e t) (hNot : e ≠ .turn p) (hLive : ¬ t.ended p) :
    ∃ before' behind', Since p rest (es ++ [e]) t before' behind' := by
  have hSame : ∀ a behind', t.queue = before ++ p :: behind' → t.ended = s.ended →
      Since p rest (es ++ [.join a]) t before behind' := by
    refine fun a behind' hQueue hEnded =>
      ⟨hQueue, fun q hq => ?_, fun q => ?_, fun q hq hLive => ?_⟩
    · rw [count_turn_of_ne (by simp)]
      exact h.waiting q hq
    · rw [count_turn_of_ne (by simp)]
      exact h.once q
    · rw [count_turn_of_ne (by simp)]
      exact h.served q hq (hEnded ▸ hLive)
  cases hStep with
  | @join a hNew =>
    exact ⟨before, behind ++ [a], hSame a _ (by simp [h.queue]) rfl⟩
  | away a => exact ⟨before, behind, hSame a _ h.queue rfl⟩
  | other hMono hQueue hFront =>
    obtain ⟨mid, rfl, rfl⟩ := split_before (h.queue.symm.trans hQueue)
      fun hMem => hLive (hFront p hMem)
    exact ⟨mid, behind, since_other h hMono hFront⟩
  | @turn a l hTurn =>
    obtain ⟨front, mid, hBefore, hQueue, hFront⟩ := since_front h hNot hLive hTurn
    obtain rfl := hBefore
    rw [hQueue]
    exact ⟨mid, behind ++ [a], since_turn [a] h hNodup hFront⟩
  | @lost a l hTurn =>
    obtain ⟨front, mid, hBefore, hQueue, hFront⟩ := since_front h hNot hLive hTurn
    obtain rfl := hBefore
    obtain rfl := List.append_cancel_right hQueue
    have hSince := since_turn [] h hNodup hFront
    rw [List.append_nil, List.append_nil] at hSince
    exact ⟨mid, behind, hSince⟩

theorem since_run (hQueue : r.queue = rest ++ [p]) (hNodup : r.queue.Nodup)
    (hRun : Run RotaStep r es t) (hNot : .turn p ∉ es) (hLive : ¬ t.ended p) :
    t.queue.Nodup ∧ ∃ before behind, Since p rest es t before behind := by
  induction hRun with
  | refl =>
    refine ⟨hNodup, rest, [], hQueue, fun q _ => rfl, fun q => Nat.zero_le _, fun q hq _ =>
      Or.inl hq⟩
  | tail _ hLast ih =>
    obtain ⟨hPrior, before, behind, hSince⟩ := ih (fun hMem => hNot (List.mem_append_left _ hMem))
      fun hEnded => hLive (ended_mono hLast hEnded)
    refine ⟨nodup_step hLast hPrior, since_step hSince hPrior hLast ?_ hLive⟩
    rintro rfl
    exact hNot (List.mem_append_right _ (List.mem_singleton_self _))

/-- Between two turns of `p` no member has more than one, and every one that waited and has not
ended has one. -/
theorem fair (hQueue : r.queue = rest ++ [p]) (hNodup : r.queue.Nodup)
    (hRun : Run RotaStep r es t) (hNot : .turn p ∉ es) (hTurn : Turn t.ended t.queue p l) (q : α) :
    es.count (.turn q) ≤ 1 ∧ (q ∈ rest → ¬ t.ended q → es.count (.turn q) = 1) := by
  obtain ⟨front, rest', hFinal, hFront, hLive, -⟩ := hTurn
  obtain ⟨hNodup, before, behind, hSince⟩ := since_run hQueue hNodup hRun hNot hLive
  refine ⟨hSince.once q, fun hq hEnded => (hSince.served q hq hEnded).resolve_left fun hMem => ?_⟩
  obtain ⟨mid, hBefore, hRest⟩ := split_before (hSince.queue.symm.trans hFinal)
    fun hMem => hLive (hFront p hMem)
  -- nothing waits between the members that ended and `p`
  cases mid with
  | nil =>
    rw [hBefore, List.append_nil] at hMem
    exact hEnded (hFront q hMem)
  | cons b mid =>
    obtain ⟨rfl, -⟩ := List.cons.inj hRest
    rw [hSince.queue, hBefore] at hNodup
    exact (List.nodup_append.mp hNodup).2.2 p (by simp) p List.mem_cons_self rfl

end Rota

end Machine
