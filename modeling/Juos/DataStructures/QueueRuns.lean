import Juos.DataStructures.Queue
import Juos.Machine.Run

/-!
# Runs of the queue

Sequences of calls on a `Queue`, between which the other users of the heap do what they like,
compared with a list. Every call checks that the nodes it reads or writes are in use. Operator
`new` hands out the small blocks of the heap and returns null when none is free, which `enqueue`
does not look at; `behaves_throughout_iff` says that this is the only way a queue and the list
part.
-/

namespace Juos.DataStructures

open Machine

universe u

/-! ## Calls -/

structure QueueState (α : Type u) where
  queue : Queue
  heap : NodeHeap α

inductive QueueCall (α : Type u) where
  | enqueue (x : α)
  | dequeue
  | makeempty
  | isempty
  | top
  deriving DecidableEq, Repr

inductive QueueAnswer (α : Type u) where
  | done
  | element (x : Option α)
  | empty (b : Bool)
  deriving DecidableEq, Repr

namespace QueueState

variable {α : Type u}

/-- A node that is not in use is not dereferenced: `enqueue` writes to the last node. -/
def enqueue (A : NodeSource) (x : α) (s : QueueState α) : Option (QueueState α) :=
  if s.queue.isempty = true ∨ s.queue.last ∈ s.heap.live then
    let r := s.queue.enqueue A x s.heap
    some ⟨r.1, r.2⟩
  else none

/-- `dequeue` reads the first node. -/
def dequeue (s : QueueState α) : Option (Option α × QueueState α) :=
  if s.queue.isempty = true ∨ s.queue.first ∈ s.heap.live then
    let r := s.queue.dequeue s.heap
    some (r.1, ⟨r.2.1, r.2.2⟩)
  else none

def top (s : QueueState α) : Option α :=
  if s.queue.first ∈ s.heap.live then some (s.queue.top s.heap) else none

/-- The loop of `makeempty`, with fuel. -/
def makeempty : Nat → QueueState α → Option (QueueState α)
  | 0, _ => none
  | fuel + 1, s =>
    if s.queue.isempty then some s else s.dequeue.bind fun r => makeempty fuel r.2

def call (A : NodeSource) (fuel : Nat) (s : QueueState α) :
    QueueCall α → Option (QueueAnswer α × QueueState α)
  | .enqueue x => (s.enqueue A x).map fun s' => (.done, s')
  | .dequeue => s.dequeue.map fun r => (.element r.1, r.2)
  | .makeempty => (makeempty fuel s).map fun s' => (.done, s')
  | .isempty => some (.empty s.queue.isempty, s)
  | .top => s.top.map fun x => (.element (some x), s)

end QueueState

/-- What the calls mean for a list, with the back of the queue at its end. -/
def fifo {α : Type u} : QueueCall α → List α → QueueAnswer α × List α
  | .enqueue x, l => (.done, l ++ [x])
  | .dequeue, l => (.element l.head?, l.tail)
  | .makeempty, _ => (.done, [])
  | .isempty, l => (.empty l.isEmpty, l)
  | .top, l => (.element l.head?, l)

/-! ## One call -/

/-- The queue holds the list `l`. -/
def Refines {α : Type u} (s : QueueState α) (l : List α) : Prop :=
  ∃ ps, Queue.Holds s.heap s.queue ps l

variable {α : Type u} {A : NodeSource} {s s' : QueueState α} {l : List α} {x : α} {fuel : Nat}

theorem enqueue_isSome (h : Refines s l) : ∃ s', s.enqueue A x = some s' ∧
    (s'.queue, s'.heap) = s.queue.enqueueAt (A.new s.heap.live) x s.heap := by
  obtain ⟨ps, hHolds⟩ := h
  rw [QueueState.enqueue, if_pos]
  · exact ⟨_, rfl, rfl⟩
  · rcases List.eq_nil_or_concat ps with rfl | ⟨front, d, rfl⟩
    · exact Or.inl (beq_iff_eq.mpr hHolds.chain)
    · rw [List.concat_eq_append] at hHolds
      rw [hHolds.last d (by simp)]
      exact Or.inr (hHolds.live d (by simp))

theorem refines_enqueue (h : Refines s l) (hNew : A.new s.heap.live ≠ 0)
    (hCall : s.enqueue A x = some s') : Refines s' (l ++ [x]) := by
  obtain ⟨r, hr, hEq⟩ := enqueue_isSome (A := A) (x := x) h
  obtain ⟨ps, hHolds⟩ := h
  obtain ⟨q', h', hAt, -, hHolds', -⟩ := hHolds.enqueueAt x hNew (A.fresh _ hNew)
  cases hCall.symm.trans hr
  rw [hAt] at hEq
  cases hEq
  exact ⟨_, hHolds'⟩

/-- Without a node the element is lost: the queue holds what it held before. -/
theorem not_refines_enqueue (h : Refines s l) (hNew : A.new s.heap.live = 0)
    (hCall : s.enqueue A x = some s') : ¬ Refines s' (l ++ [x]) := by
  obtain ⟨r, hr, hEq⟩ := enqueue_isSome (A := A) (x := x) h
  obtain ⟨ps, hHolds⟩ := h
  cases hCall.symm.trans hr
  rw [hNew] at hEq
  rintro ⟨ps', hHolds'⟩
  have hThreads := hHolds.enqueueAt_null x
  rw [← hEq] at hThreads
  have hSame := hHolds'.unique hThreads
  simp at hSame

theorem refines_dequeue (h : Refines s l) :
    ∃ s', s.dequeue = some (l.head?, s') ∧ Refines s' l.tail := by
  obtain ⟨ps, hHolds⟩ := h
  cases l with
  | nil =>
    refine ⟨s, ?_, ps, hHolds⟩
    rw [QueueState.dequeue, if_pos (Or.inl (hHolds.isempty_iff.mpr rfl)), hHolds.dequeue_nil]
    rfl
  | cons x l =>
    obtain ⟨p, ps', q', rfl, hEq, hHolds'⟩ := hHolds.dequeue_cons
    refine ⟨⟨q', _⟩, ?_, ps', hHolds'⟩
    have hFirst : s.queue.first ∈ s.heap.live := by
      rw [hHolds.chain.1]
      exact hHolds.live p List.mem_cons_self
    rw [QueueState.dequeue, if_pos (Or.inr hFirst), hEq]
    rfl

theorem top_of_refines (h : Refines s (x :: l)) : s.top = some x := by
  obtain ⟨ps, hHolds⟩ := h
  have hFirst : s.queue.first ∈ s.heap.live := by
    obtain ⟨p, ps', q', rfl, -, -⟩ := hHolds.dequeue_cons
    rw [hHolds.chain.1]
    exact hHolds.live p List.mem_cons_self
  rw [QueueState.top, if_pos hFirst, hHolds.top]

/-- The loop returns once it has the fuel for every element. -/
theorem makeempty_isSome (h : Refines s l) (hFuel : l.length < fuel) :
    ∃ s', QueueState.makeempty fuel s = some s' := by
  induction fuel generalizing s l with
  | zero => omega
  | succ fuel ih =>
    rw [QueueState.makeempty]
    split_ifs with hEmpty
    · exact ⟨s, rfl⟩
    · obtain ⟨s₁, hDequeue, hRefines⟩ := refines_dequeue h
      rw [hDequeue]
      obtain ⟨ps, hHolds⟩ := h
      have hne : l ≠ [] := fun hNil => hEmpty (hHolds.isempty_iff.mpr hNil)
      have hPos := List.length_pos_of_ne_nil hne
      apply ih hRefines
      rw [List.length_tail]
      omega

theorem refines_makeempty (h : Refines s l) (hCall : QueueState.makeempty fuel s = some s') :
    Refines s' [] := by
  induction fuel generalizing s l with
  | zero => cases hCall
  | succ fuel ih =>
    rw [QueueState.makeempty] at hCall
    split_ifs at hCall with hEmpty
    · cases hCall
      obtain ⟨ps, hHolds⟩ := h
      rw [hHolds.isempty_iff.mp hEmpty] at hHolds
      exact ⟨ps, hHolds⟩
    · obtain ⟨s₁, hDequeue, hRefines⟩ := refines_dequeue h
      rw [hDequeue] at hCall
      exact ih hRefines hCall

/-! ## Sequences of calls -/

inductive QueueEvent (α : Type u) where
  | call (x : QueueCall α)
  /-- what the other users of the heap make of it -/
  | other (heap : NodeHeap α)

/-- A queue next to the list that it is compared with. `top` is called on a queue that is not
empty, and nobody else touches the nodes of the queue. -/
inductive QueueStep (A : NodeSource) :
    QueueState α × List α → QueueEvent α → QueueState α × List α → Prop
  | call {s s' : QueueState α} {l : List α} {x : QueueCall α} {answer : QueueAnswer α}
      (fuel : Nat) (hTop : x = .top → l ≠ []) (hCall : s.call A fuel x = some (answer, s')) :
      QueueStep A (s, l) (.call x) (s', (fifo x l).2)
  | other {s : QueueState α} {l : List α} {heap : NodeHeap α}
      (hFrame : ∀ ps, Queue.Chain s.heap.nodes s.queue.first ps → ∀ p ∈ ps,
        heap.nodes p = s.heap.nodes p ∧ (p ∈ s.heap.live → p ∈ heap.live)) :
      QueueStep A (s, l) (.other heap) (⟨s.queue, heap⟩, l)

/-- The call returns the answer of the list and leaves what the list is then. -/
def Behaves (A : NodeSource) (t : QueueState α × List α) : QueueEvent α → Prop
  | .call x => (x = .top → t.2 ≠ []) → ∃ fuel s',
      t.1.call A fuel x = some ((fifo x t.2).1, s') ∧ Refines s' (fifo x t.2).2
  | .other _ => True

/-- Operator `new` has a node for `enqueue`. -/
def HasNode (A : NodeSource) (t : QueueState α × List α) (e : QueueEvent α) : Prop :=
  ∀ x, e = .call (.enqueue x) → A.new t.1.heap.live ≠ 0

theorem behaves_call (h : Refines s l) {x : QueueCall α} (hTop : x = .top → l ≠ [])
    (hNode : HasNode A (s, l) (.call x)) :
    ∃ fuel s', s.call A fuel x = some ((fifo x l).1, s') ∧ Refines s' (fifo x l).2 := by
  cases x with
  | enqueue x =>
    obtain ⟨s', hCall, -⟩ := enqueue_isSome (A := A) (x := x) h
    refine ⟨0, s', ?_, refines_enqueue h (hNode x rfl) hCall⟩
    rw [QueueState.call, hCall]
    rfl
  | dequeue =>
    obtain ⟨s', hCall, hRefines⟩ := refines_dequeue h
    refine ⟨0, s', ?_, hRefines⟩
    rw [QueueState.call, hCall]
    rfl
  | makeempty =>
    obtain ⟨s', hCall⟩ := makeempty_isSome h (Nat.lt_succ_self _)
    refine ⟨l.length + 1, s', ?_, refines_makeempty h hCall⟩
    rw [QueueState.call, hCall]
    rfl
  | isempty =>
    refine ⟨0, s, ?_, h⟩
    obtain ⟨ps, hHolds⟩ := h
    have hEmpty : s.queue.isempty = l.isEmpty := by
      rw [Bool.eq_iff_iff, hHolds.isempty_iff, List.isEmpty_iff]
    rw [QueueState.call, hEmpty]
    rfl
  | top =>
    obtain ⟨x, l, rfl⟩ := List.exists_cons_of_ne_nil (hTop rfl)
    refine ⟨0, s, ?_, h⟩
    rw [QueueState.call, top_of_refines h]
    rfl

theorem refines_call (h : Refines s l) {x : QueueCall α} {answer : QueueAnswer α}
    (hNode : HasNode A (s, l) (.call x)) (hCall : s.call A fuel x = some (answer, s')) :
    Refines s' (fifo x l).2 := by
  cases x with
  | enqueue x =>
    obtain ⟨r, hr, hEq⟩ := Option.map_eq_some_iff.mp hCall
    cases hEq
    exact refines_enqueue h (hNode x rfl) hr
  | dequeue =>
    obtain ⟨r, hr, hRefines⟩ := refines_dequeue h
    rw [QueueState.call, hr] at hCall
    cases hCall
    exact hRefines
  | makeempty =>
    obtain ⟨r, hr, hEq⟩ := Option.map_eq_some_iff.mp hCall
    cases hEq
    exact refines_makeempty h hr
  | isempty =>
    cases hCall
    exact h
  | top =>
    obtain ⟨r, hr, hEq⟩ := Option.map_eq_some_iff.mp hCall
    cases hEq
    exact h

theorem behaves_iff (h : Refines s l) (e : QueueEvent α) :
    Behaves A (s, l) e ↔ HasNode A (s, l) e := by
  constructor
  · rintro hBehaves x rfl hNull
    obtain ⟨fuel, s', hCall, hRefines⟩ := hBehaves nofun
    obtain ⟨r, hr, hEq⟩ := Option.map_eq_some_iff.mp hCall
    cases hEq
    exact not_refines_enqueue h hNull hr hRefines
  · intro hNode
    cases e with
    | call x => exact fun hTop => behaves_call h hTop hNode
    | other heap => trivial

/-- From an empty queue, every call of a sequence does what it does on the list, and dereferences
no node that is not in use, exactly when operator `new` has a node for every `enqueue`. -/
theorem behaves_throughout_iff (A : NodeSource) (heap : NodeHeap α) (es : List (QueueEvent α)) :
    Throughout (QueueStep A) (Behaves A) (⟨Queue.empty, heap⟩, []) es ↔
      Throughout (QueueStep A) (HasNode A) (⟨Queue.empty, heap⟩, []) es := by
  apply Throughout.iff (I := fun t => Refines t.1 t.2)
  · exact ⟨[], Queue.Holds.empty heap⟩
  · rintro ⟨s, l⟩ e h
    exact behaves_iff h e
  · rintro t e t' h hNode hStep
    cases hStep with
    | call fuel hTop hCall => exact refines_call h hNode hCall
    | other hFrame =>
      obtain ⟨ps, hHolds⟩ := h
      refine ⟨ps, hHolds.frame ?_ ?_⟩
      · intro p hp
        exact (hFrame ps hHolds.chain p hp).1
      · intro p hp
        exact (hFrame ps hHolds.chain p hp).2 (hHolds.live p hp)

/-- An element enqueued while every small block is in use. -/
theorem not_behaves_full : ¬ Throughout (QueueStep (NodeSource.fastbins 0xC0000000 100))
    (Behaves (NodeSource.fastbins 0xC0000000 100))
    (⟨Queue.empty, ⟨fun _ => ⟨7, 0⟩, smallBlocks⟩⟩, ([] : List Nat)) [.call (.enqueue 7)] := by
  intro hAll
  have hNode := (behaves_iff ⟨[], Queue.Holds.empty _⟩ _).mp (Throughout.singleton_iff.mp hAll)
  apply hNode 7 rfl
  have hFull : firstFree (fun i => 0xC0000000 + 64 * i ∈ smallBlocks) 100 = none := by
    apply List.find?_eq_none.mpr
    intro i hi
    have hMem : 0xC0000000 + 64 * i ∈ smallBlocks := List.mem_map.mpr ⟨i, hi, rfl⟩
    simpa using hMem
  exact congrArg (fun o => (o.map (0xC0000000 + 64 * ·)).getD 0) hFull

end Juos.DataStructures
