import Juos.Machine.FirstFit

/-!
# The linked queue

The class template `Queue` over the memory its nodes live in. `Threads h q ps l` says that the
nodes at `ps` are threaded from the first node of `q` to null and hold the elements `l`, and
`Holds h q ps l` that `last` is the last of them; on such a queue `enqueue` appends to `l` and
`dequeue` takes its head. A queue that is emptied keeps a stale `last`, which nothing reads.

Operator `new` is a parameter: what it returns is not in use, or null. `enqueue` does not look at
it, and with a null node the element is lost and `last` with it.
-/

namespace Juos.DataStructures

open Machine

universe u

/-! ## Nodes -/

structure QNode (α : Type u) where
  element : α
  next : Nat

/-- The nodes by address, and the addresses that are in use. -/
structure NodeHeap (α : Type u) where
  nodes : Nat → QNode α
  live : List Nat

/-- Where operator `new` puts the next node; null where it finds no room. -/
structure NodeSource where
  new : List Nat → Nat
  fresh : ∀ live, new live ≠ 0 → new live ∉ live

namespace NodeSource

/-- The pool of small blocks from `start`, lowest free block first. -/
def fastbins (start size : Nat) : NodeSource where
  new live := ((firstFree (fun i => start + 64 * i ∈ live) size).map (start + 64 * ·)).getD 0
  fresh live hne := by
    cases hFind : firstFree (fun i => start + 64 * i ∈ live) size with
    | none =>
      rw [hFind] at hne
      exact absurd rfl hne
    | some i =>
      have hFree := (firstFree_spec hFind).2.1
      simpa using hFree

/-- Operator `new` has a node for a call that deletes one first. -/
def Answers (A : NodeSource) (live : List Nat) : Prop :=
  ∀ rest : List Nat, rest.Sublist live → rest.length < live.length → A.new rest ≠ 0

theorem Answers.sublist {A : NodeSource} {live live' : List Nat} (h : A.Answers live)
    (hSub : live'.Sublist live) : A.Answers live' := fun rest hRest hShorter =>
  h rest (hRest.trans hSub) (Nat.lt_of_lt_of_le hShorter hSub.length_le)

/-- The pool has a block while fewer blocks are in use than it has. -/
theorem fastbins_ne_zero {start size : Nat} {live : List Nat} (hStart : start ≠ 0)
    (hFew : live.length < size) : (fastbins start size).new live ≠ 0 := by
  have hFree : 0 < freeCount (fun i => decide (start + 64 * i ∈ live)) size := by
    by_contra hNone
    have hAll : ∀ i < size, start + 64 * i ∈ live := by
      intro i hi
      have hZero : freeCount (fun i => decide (start + 64 * i ∈ live)) size = 0 := by omega
      have hTaken := List.countP_eq_zero.mp hZero i (List.mem_range.mpr hi)
      simpa using hTaken
    have hNodup : ((List.range size).map (start + 64 * ·)).Nodup :=
      List.Pairwise.map _ (fun i j hne hEq => hne (by omega)) List.nodup_range
    have hLe := (hNodup.subperm fun a ha => by
      obtain ⟨i, hi, rfl⟩ := List.mem_map.mp ha
      exact hAll i (List.mem_range.mp hi)).length_le
    rw [List.length_map, List.length_range] at hLe
    omega
  obtain ⟨i, hFind⟩ := firstFree_isSome hFree
  have hNew : (fastbins start size).new live = start + 64 * i := by
    simp only [fastbins, hFind, Option.map_some, Option.getD_some]
  omega

/-- With no more blocks in use than the pool has, a block that is deleted can be had again. -/
theorem fastbins_answers {start size : Nat} {live : List Nat} (hStart : start ≠ 0)
    (hFit : live.length ≤ size) : (fastbins start size).Answers live :=
  fun _ _ hShorter => fastbins_ne_zero hStart (by omega)

end NodeSource

/-- The hundred small blocks of the kernel's heap. -/
def smallBlocks : List Nat := (List.range 100).map (0xC0000000 + 64 * ·)

/-- The pool of the kernel's heap. -/
def kernelPool : NodeSource := .fastbins 0xC0000000 100

/-! ## Operations -/

structure Queue where
  first : Nat
  last : Nat

namespace Queue

variable {α : Type u}

def empty : Queue := ⟨0, 0⟩

def isempty (q : Queue) : Bool := q.first == 0

def top (q : Queue) (h : NodeHeap α) : α := (h.nodes q.first).element

/-- What `enqueue` does once operator `new` has returned `p`, which may be null. -/
def enqueueAt (p : Nat) (x : α) (q : Queue) (h : NodeHeap α) : Queue × NodeHeap α :=
  let h := { nodes := Function.update h.nodes p ⟨x, 0⟩
             live := if p = 0 then h.live else p :: h.live : NodeHeap α }
  if q.isempty then (⟨p, p⟩, h)
  else
    ({ q with last := p },
      { h with nodes := Function.update h.nodes q.last { h.nodes q.last with next := p } })

def enqueue (A : NodeSource) (x : α) (q : Queue) (h : NodeHeap α) : Queue × NodeHeap α :=
  q.enqueueAt (A.new h.live) x h

/-- The element is `none` where the source returns a null pointer. -/
def dequeue (q : Queue) (h : NodeHeap α) : Option α × Queue × NodeHeap α :=
  if q.isempty then (none, q, h)
  else
    let p := q.first
    (some (h.nodes p).element, { q with first := (h.nodes p).next },
      { h with live := h.live.erase p })

@[simp] theorem enqueueAt_first (p : Nat) (x : α) (q : Queue) (h : NodeHeap α) :
    (q.enqueueAt p x h).1.first = if q.isempty then p else q.first := by
  rw [enqueueAt]
  dsimp only
  split <;> rfl

@[simp] theorem enqueueAt_last (p : Nat) (x : α) (q : Queue) (h : NodeHeap α) :
    (q.enqueueAt p x h).1.last = p := by
  rw [enqueueAt]
  dsimp only
  split <;> rfl

@[simp] theorem enqueueAt_live (p : Nat) (x : α) (q : Queue) (h : NodeHeap α) :
    (q.enqueueAt p x h).2.live = if p = 0 then h.live else p :: h.live := by
  rw [enqueueAt]
  dsimp only
  split <;> rfl

theorem mem_live_enqueueAt {p d : Nat} {x : α} {q : Queue} {h : NodeHeap α} (hd : d ∈ h.live) :
    d ∈ (q.enqueueAt p x h).2.live := by
  rw [enqueueAt_live]
  split
  · exact hd
  · exact List.mem_cons_of_mem _ hd

/-- The node that `last` points to is written to, unless the queue is empty. -/
theorem enqueueAt_nodes {p d : Nat} {q : Queue} {h : NodeHeap α} (x : α) (hNew : d ≠ p)
    (hLast : q.isempty = false → d ≠ q.last) :
    (q.enqueueAt p x h).2.nodes d = h.nodes d := by
  rw [enqueueAt]
  dsimp only
  split
  · exact Function.update_of_ne hNew ..
  · rename_i hFull
    have hne := hLast (Bool.not_eq_true _ ▸ hFull)
    exact (Function.update_of_ne hne ..).trans (Function.update_of_ne hNew ..)

/-! ## What a queue holds -/

/-- The nodes at `ps` are threaded from `a` to null. -/
def Chain (nodes : Nat → QNode α) : Nat → List Nat → Prop
  | a, [] => a = 0
  | a, p :: ps => a = p ∧ p ≠ 0 ∧ Chain nodes (nodes p).next ps

structure Threads (h : NodeHeap α) (q : Queue) (ps : List Nat) (l : List α) : Prop where
  chain : Chain h.nodes q.first ps
  elements : ps.map (fun p => (h.nodes p).element) = l
  nodup : ps.Nodup
  live : ∀ p ∈ ps, p ∈ h.live

/-- `last` is the last of the nodes at `ps`, if there is one. -/
def Ends (q : Queue) (ps : List Nat) : Prop := ∀ p ∈ ps.getLast?, q.last = p

structure Holds (h : NodeHeap α) (q : Queue) (ps : List Nat) (l : List α) : Prop
    extends Threads h q ps l where
  last : q.Ends ps

variable {A : NodeSource} {h h' : NodeHeap α} {q : Queue} {ps : List Nat} {l : List α} {x : α}
  {nodes nodes' : Nat → QNode α} {a p d : Nat}

theorem chain_congr (hChain : Chain nodes a ps)
    (hSame : ∀ p ∈ ps, (nodes' p).next = (nodes p).next) : Chain nodes' a ps := by
  induction ps generalizing a with
  | nil => exact hChain
  | cons p ps ih =>
    obtain ⟨rfl, hne, hRest⟩ := hChain
    refine ⟨rfl, hne, ?_⟩
    rw [hSame _ List.mem_cons_self]
    exact ih hRest fun p hp => hSame p (List.mem_cons_of_mem _ hp)

/-- A node threaded behind the last one. -/
theorem chain_append (hChain : Chain nodes a (ps ++ [d])) (hp : p ≠ 0)
    (hSame : ∀ c ∈ ps, (nodes' c).next = (nodes c).next) (hLast : (nodes' d).next = p)
    (hNew : (nodes' p).next = 0) : Chain nodes' a (ps ++ [d] ++ [p]) := by
  induction ps generalizing a with
  | nil =>
    obtain ⟨rfl, hne, -⟩ := hChain
    exact ⟨rfl, hne, hLast, hp, hNew⟩
  | cons c ps ih =>
    obtain ⟨rfl, hne, hRest⟩ := hChain
    refine ⟨rfl, hne, ?_⟩
    rw [hSame _ List.mem_cons_self]
    exact ih hRest fun c hc => hSame c (List.mem_cons_of_mem _ hc)

theorem chain_eq_zero_iff (hChain : Chain nodes a ps) : a = 0 ↔ ps = [] := by
  cases ps with
  | nil => exact ⟨fun _ => rfl, fun _ => hChain⟩
  | cons p ps =>
    obtain ⟨rfl, hne, -⟩ := hChain
    exact ⟨fun hZero => absurd hZero hne, fun hNil => nomatch hNil⟩

theorem chain_unique {qs : List Nat} (hps : Chain nodes a ps) (hqs : Chain nodes a qs) :
    ps = qs := by
  induction ps generalizing a qs with
  | nil => exact ((chain_eq_zero_iff hqs).mp hps).symm
  | cons p ps ih =>
    obtain ⟨rfl, hne, hRest⟩ := hps
    cases qs with
    | nil => exact absurd hqs hne
    | cons q qs =>
      obtain ⟨rfl, -, hRest'⟩ := hqs
      rw [ih hRest hRest']

theorem chain_ne_zero (hChain : Chain nodes a ps) (hp : p ∈ ps) : p ≠ 0 := by
  induction ps generalizing a with
  | nil => cases hp
  | cons d ps ih =>
    obtain ⟨rfl, hne, hRest⟩ := hChain
    rcases List.mem_cons.mp hp with rfl | hMem
    · exact hne
    · exact ih hRest hMem

/-- The last node points to null. -/
theorem chain_next_last (hChain : Chain nodes a (ps ++ [d])) : (nodes d).next = 0 := by
  induction ps generalizing a with
  | nil =>
    obtain ⟨-, -, hEnd⟩ := hChain
    exact hEnd
  | cons p ps ih =>
    obtain ⟨-, -, hRest⟩ := hChain
    exact ih hRest

namespace Threads

theorem unique {qs : List Nat} {m : List α} (hl : Threads h q ps l) (hm : Threads h q qs m) :
    l = m := by
  rw [← hl.elements, ← hm.elements, chain_unique hl.chain hm.chain]

theorem length (hThreads : Threads h q ps l) : ps.length = l.length := by
  rw [← hThreads.elements, List.length_map]

/-- Only the nodes of the queue matter. -/
theorem frame (hThreads : Threads h q ps l) (hNodes : ∀ p ∈ ps, h'.nodes p = h.nodes p)
    (hLive : ∀ p ∈ ps, p ∈ h'.live) : Threads h' q ps l where
  chain := chain_congr hThreads.chain fun p hp => congrArg QNode.next (hNodes p hp)
  elements := by
    rw [← hThreads.elements]
    exact List.map_congr_left fun p hp => congrArg QNode.element (hNodes p hp)
  nodup := hThreads.nodup
  live := hLive

theorem isempty_iff (hThreads : Threads h q ps l) : q.isempty = true ↔ l = [] := by
  rw [Queue.isempty, beq_iff_eq, chain_eq_zero_iff hThreads.chain, ← hThreads.elements,
    List.map_eq_nil_iff]

theorem top (hThreads : Threads h q ps (x :: l)) : q.top h = x := by
  obtain ⟨hChain, hElements, -, -⟩ := hThreads
  cases ps with
  | nil => cases hElements
  | cons p ps =>
    rw [Queue.top, hChain.1]
    exact (List.cons.inj hElements).1

theorem dequeue_nil (hThreads : Threads h q ps []) : q.dequeue h = (none, q, h) := by
  rw [Queue.dequeue, if_pos (hThreads.isempty_iff.mpr rfl)]

/-- Taking an element deletes the first node and touches no other. -/
theorem dequeue_cons (hThreads : Threads h q ps (x :: l)) :
    ∃ p ps' q', ps = p :: ps' ∧
      q.dequeue h = (some x, q', { h with live := h.live.erase p }) ∧
      Threads { h with live := h.live.erase p } q' ps' l ∧ q'.last = q.last := by
  have hFull : ¬ q.isempty = true := fun hEmpty => nomatch hThreads.isempty_iff.mp hEmpty
  have hTop := hThreads.top
  obtain ⟨hChain, hElements, hNodup, hLive⟩ := hThreads
  cases ps with
  | nil => cases hElements
  | cons p ps =>
    obtain ⟨hFirst, -, hRest⟩ := hChain
    obtain ⟨hNew, hNodup⟩ := List.nodup_cons.mp hNodup
    refine ⟨p, ps, { q with first := (h.nodes p).next }, rfl, ?_, ⟨hRest,
      (List.cons.inj hElements).2, hNodup, fun d hd => ?_⟩, rfl⟩
    · rw [Queue.dequeue, if_neg hFull]
      unfold Queue.top at hTop
      simp only [hFirst] at hTop ⊢
      rw [hTop]
    · have hne : d ≠ p := by
        rintro rfl
        exact hNew hd
      exact (List.mem_erase_of_ne hne).mpr (hLive d (List.mem_cons_of_mem _ hd))

end Threads

/-- The last of the nodes behind the first one. -/
theorem Ends.tail {q' : Queue} (hEnds : q.Ends (p :: ps)) (hLast : q'.last = q.last) :
    q'.Ends ps := by
  intro d hd
  rw [hLast]
  apply hEnds d
  cases ps with
  | nil => cases hd
  | cons b ps => exact hd

namespace Holds

theorem empty (h : NodeHeap α) : Holds h Queue.empty [] [] where
  chain := rfl
  elements := rfl
  nodup := List.nodup_nil
  live _ hp := nomatch hp
  last _ hp := nomatch hp

theorem frame (hHolds : Holds h q ps l) (hNodes : ∀ p ∈ ps, h'.nodes p = h.nodes p)
    (hLive : ∀ p ∈ ps, p ∈ h'.live) : Holds h' q ps l :=
  ⟨hHolds.toThreads.frame hNodes hLive, hHolds.last⟩

theorem dequeue_cons (hHolds : Holds h q ps (x :: l)) :
    ∃ p ps' q', ps = p :: ps' ∧
      q.dequeue h = (some x, q', { h with live := h.live.erase p }) ∧
      Holds { h with live := h.live.erase p } q' ps' l := by
  obtain ⟨p, ps', q', rfl, hDequeue, hRest, hLast⟩ := hHolds.toThreads.dequeue_cons
  exact ⟨p, ps', q', rfl, hDequeue, hRest, hHolds.last.tail hLast⟩

/-- The nodes after a new one at `p` was threaded behind the one at `d`. -/
theorem threaded_nodes (nodes : Nat → QNode α) (x : α) (hpd : p ≠ d) :
    let nodes' := Function.update nodes p ⟨x, 0⟩
    let after := Function.update nodes' d { nodes' d with next := p }
    after p = ⟨x, 0⟩ ∧ after d = { nodes d with next := p } ∧
      ∀ c, c ≠ p → c ≠ d → after c = nodes c := by
  refine ⟨?_, ?_, fun c hcp hcd => ?_⟩
  · rw [Function.update_of_ne hpd, Function.update_self]
  · rw [Function.update_self, Function.update_of_ne hpd.symm]
  · rw [Function.update_of_ne hcd, Function.update_of_ne hcp]

theorem enqueueAt_empty (x : α) (hHolds : Holds h q ps []) (hne : p ≠ 0) :
    ∃ q' h', q.enqueueAt p x h = (q', h') ∧ h'.live = p :: h.live ∧
      Holds h' q' (ps ++ [p]) [x] ∧ ∀ d, d ≠ p → h'.nodes d = h.nodes d := by
  have hEmpty := hHolds.isempty_iff.mpr rfl
  obtain rfl : ps = [] := List.map_eq_nil_iff.mp hHolds.elements
  refine ⟨_, _, by rw [Queue.enqueueAt, if_pos hEmpty, if_neg hne], rfl, ?_, fun d hd =>
    Function.update_of_ne hd ..⟩
  refine ⟨⟨⟨rfl, hne, ?_⟩, ?_, List.pairwise_singleton .., fun d hd => ?_⟩, fun d hd => ?_⟩
  · simp [Chain]
  · simp
  · exact List.mem_cons.mpr (Or.inl (List.mem_singleton.mp hd))
  · simpa using hd

theorem enqueueAt_behind (x : α) (hHolds : Holds h q (ps ++ [d]) l) (hne : p ≠ 0)
    (hFresh : p ∉ ps ++ [d]) :
    ∃ q' h', q.enqueueAt p x h = (q', h') ∧ h'.live = p :: h.live ∧
      Holds h' q' (ps ++ [d] ++ [p]) (l ++ [x]) ∧
      ∀ c, c ≠ p → c ∉ ps ++ [d] → h'.nodes c = h.nodes c := by
  obtain ⟨⟨hChain, hElements, hNodup, hLive⟩, hLast⟩ := hHolds
  have hNotEmpty : q.isempty ≠ true := fun hEmpty => by
    have hNil := (chain_eq_zero_iff hChain).mp (beq_iff_eq.mp hEmpty)
    exact List.append_ne_nil_of_right_ne_nil _ (List.cons_ne_nil _ _) hNil
  have hd : q.last = d := hLast d (by simp)
  obtain ⟨hpFront, hpd⟩ : p ∉ ps ∧ p ≠ d := by simpa using hFresh
  have hDistinct : d ∉ ps := fun hMem =>
    (List.nodup_append.mp hNodup).2.2 d hMem d (List.mem_singleton_self d) rfl
  obtain ⟨hNew, hThreaded, hOthers⟩ := threaded_nodes h.nodes x hpd
  have hOld : ∀ c ∈ ps, c ≠ p ∧ c ≠ d := fun c hc =>
    ⟨fun hEq => hpFront (hEq ▸ hc), fun hEq => hDistinct (hEq ▸ hc)⟩
  subst hd
  refine ⟨_, _, by rw [Queue.enqueueAt, if_neg hNotEmpty, if_neg hne], rfl, ?_,
    fun c hcp hc => hOthers c hcp fun hcd => hc (by simp [hcd])⟩
  refine ⟨⟨?_, ?_, ?_, fun c hc => ?_⟩, fun c hc => ?_⟩
  · refine chain_append hChain hne (fun c hc => ?_) ?_ ?_
    · exact congrArg QNode.next (hOthers c (hOld c hc).1 (hOld c hc).2)
    · exact congrArg QNode.next hThreaded
    · exact congrArg QNode.next hNew
  · rw [List.map_append, List.map_singleton]
    refine congrArg₂ (· ++ ·) ?_ (congrArg (fun n => [n.element]) hNew)
    rw [← hElements]
    refine List.map_congr_left fun c hc => ?_
    rcases List.mem_append.mp hc with hFront | hEnd
    · exact congrArg QNode.element (hOthers c (hOld c hFront).1 (hOld c hFront).2)
    · rw [List.mem_singleton.mp hEnd]
      have hElement := congrArg QNode.element hThreaded
      exact hElement
  · exact List.nodup_append.mpr ⟨hNodup, List.pairwise_singleton .., fun c hc e he hEq =>
      hFresh (List.mem_singleton.mp he ▸ hEq ▸ hc)⟩
  · rcases List.mem_append.mp hc with hOld | hNew
    · exact List.mem_cons_of_mem _ (hLive c hOld)
    · rw [List.mem_singleton.mp hNew]
      exact List.mem_cons_self
  · simpa using hc

/-- Appending an element threads the new node and touches none of another queue. -/
theorem enqueueAt (x : α) (hHolds : Holds h q ps l) (hne : p ≠ 0) (hFree : p ∉ h.live) :
    ∃ q' h', q.enqueueAt p x h = (q', h') ∧ h'.live = p :: h.live ∧
      Holds h' q' (ps ++ [p]) (l ++ [x]) ∧ ∀ d, d ≠ p → d ∉ ps → h'.nodes d = h.nodes d := by
  have hFresh : p ∉ ps := fun hMem => hFree (hHolds.live _ hMem)
  rcases List.eq_nil_or_concat ps with rfl | ⟨front, d, rfl⟩
  · obtain rfl : [] = l := hHolds.elements
    obtain ⟨q', h', hEq, hLive, hNew, hSame⟩ := hHolds.enqueueAt_empty x hne
    exact ⟨q', h', hEq, hLive, hNew, fun d hd _ => hSame d hd⟩
  · rw [List.concat_eq_append] at hHolds hFresh ⊢
    exact hHolds.enqueueAt_behind x hne hFresh

theorem enqueue (A : NodeSource) (x : α) (hHolds : Holds h q ps l) (hNew : A.new h.live ≠ 0) :
    ∃ q' h', q.enqueue A x h = (q', h') ∧ h'.live = A.new h.live :: h.live ∧
      Holds h' q' (ps ++ [A.new h.live]) (l ++ [x]) ∧
      ∀ d, d ≠ A.new h.live → d ∉ ps → h'.nodes d = h.nodes d :=
  hHolds.enqueueAt x hNew (A.fresh h.live hNew)

end Holds

/-! ## Without a node -/

/-- `last` is null, or a node that is in use and is not one of those at `used`. -/
def Lost (live : List Nat) (q : Queue) (used : List Nat) : Prop :=
  q.last ∉ used ∧ (q.last = 0 ∨ q.last ∈ live)

/-- With a null node the queue stays threaded through the nodes it had. -/
theorem Holds.enqueueAt_null (x : α) (hHolds : Holds h q ps l) :
    Threads (q.enqueueAt 0 x h).2 (q.enqueueAt 0 x h).1 ps l := by
  obtain ⟨hThreads, hLast⟩ := hHolds
  have hNext : ∀ c ∈ ps, ((q.enqueueAt 0 x h).2.nodes c).element = (h.nodes c).element ∧
      ((q.enqueueAt 0 x h).2.nodes c).next = (h.nodes c).next := by
    intro c hc
    have hne := chain_ne_zero hThreads.chain hc
    by_cases hEnd : c = q.last
    · obtain ⟨front, rfl⟩ : ∃ front, ps = front ++ [c] := by
        rcases List.eq_nil_or_concat ps with rfl | ⟨front, d, rfl⟩
        · cases hc
        · rw [List.concat_eq_append] at hLast ⊢
          exact ⟨front, by rw [hEnd, hLast d (by simp)]⟩
      have hNull := chain_next_last hThreads.chain
      have hFull : q.isempty ≠ true := fun hEmpty => by
        have hNil := (chain_eq_zero_iff hThreads.chain).mp (beq_iff_eq.mp hEmpty)
        simp at hNil
      rw [Queue.enqueueAt, if_neg hFull, ← hEnd, hNull]
      simp [Function.update_of_ne hne]
    · rw [enqueueAt_nodes x hne fun _ => hEnd]
      exact ⟨rfl, rfl⟩
  have hFirst : (q.enqueueAt 0 x h).1.first = q.first := by
    rw [enqueueAt_first]
    split
    · rename_i hEmpty
      exact (beq_iff_eq.mp hEmpty).symm
    · rfl
  refine ⟨?_, ?_, hThreads.nodup, ?_⟩
  · rw [hFirst]
    exact chain_congr hThreads.chain fun c hc => (hNext c hc).2
  · rw [← hThreads.elements]
    exact List.map_congr_left fun c hc => (hNext c hc).1
  · rw [enqueueAt_live, if_pos rfl]
    exact hThreads.live

/-- What is threaded behind a lost node is not reached. -/
theorem Threads.enqueueAt_lost (x : α) (hThreads : Threads h q ps l) (hne : ps ≠ [])
    (hLost : q.last ∉ ps) (hFree : p ∉ ps) :
    Threads (q.enqueueAt p x h).2 (q.enqueueAt p x h).1 ps l := by
  have hFull : q.isempty ≠ true := fun hEmpty =>
    hne ((chain_eq_zero_iff hThreads.chain).mp (beq_iff_eq.mp hEmpty))
  have hFirst : (q.enqueueAt p x h).1.first = q.first := by
    rw [enqueueAt_first, if_neg hFull]
  have hSame : ∀ c ∈ ps, (q.enqueueAt p x h).2.nodes c = h.nodes c := fun c hc =>
    enqueueAt_nodes x (ne_of_mem_of_not_mem hc hFree) fun _ => ne_of_mem_of_not_mem hc hLost
  obtain ⟨hChain, hElements, hNodup, hLive⟩ := hThreads.frame hSame fun c hc =>
    mem_live_enqueueAt (hThreads.live c hc)
  exact ⟨hFirst ▸ hChain, hElements, hNodup, hLive⟩

/-! ## Two queues over one memory -/

/-- The queues share no node. `last` of one that is not empty is its last node or was lost. -/
structure Pair (h : NodeHeap α) (q r : Queue) (ps qs : List Nat) (l m : List α) : Prop where
  first : Threads h q ps l
  second : Threads h r qs m
  apart : ∀ d ∈ ps, d ∉ qs
  firstLast : ps ≠ [] → q.Ends ps ∨ q.Lost h.live (ps ++ qs)
  secondLast : qs ≠ [] → r.Ends qs ∨ r.Lost h.live (qs ++ ps)

namespace Pair

variable {r : Queue} {qs : List Nat} {m : List α}

theorem symm (hPair : Pair h q r ps qs l m) : Pair h r q qs ps m l where
  first := hPair.second
  second := hPair.first
  apart d hd hMem := hPair.apart d hMem hd
  firstLast := hPair.secondLast
  secondLast := hPair.firstLast

theorem empty (h : NodeHeap α) : Pair h .empty .empty [] [] [] [] :=
  ⟨(Holds.empty h).toThreads, (Holds.empty h).toThreads, fun _ hd => (nomatch hd),
    fun hne => absurd rfl hne, fun hne => absurd rfl hne⟩

/-- The first node of one queue is neither the last one of the other nor lost. -/
theorem dequeue (hPair : Pair h q r ps qs (x :: l) m) :
    ∃ p ps' q', ps = p :: ps' ∧
      q.dequeue h = (some x, q', { h with live := h.live.erase p }) ∧ q'.last = q.last ∧
      Pair { h with live := h.live.erase p } q' r ps' qs l m := by
  obtain ⟨hFirst, hSecond, hApart, hFirstLast, hSecondLast⟩ := hPair
  obtain ⟨p, ps', q', rfl, hDequeue, hRest, hLast⟩ := hFirst.dequeue_cons
  have hKept : ∀ d ∈ h.live, d ≠ p → d ∈ h.live.erase p := fun d hd hne =>
    (List.mem_erase_of_ne hne).mpr hd
  refine ⟨p, ps', q', rfl, hDequeue, hLast, hRest, ?_, ?_, ?_, ?_⟩
  · refine hSecond.frame (fun _ _ => rfl) fun d hd => hKept d (hSecond.live d hd) ?_
    rintro rfl
    exact hApart d List.mem_cons_self hd
  · exact fun d hd => hApart d (List.mem_cons_of_mem _ hd)
  · intro _
    rcases hFirstLast (List.cons_ne_nil _ _) with hEnds | ⟨hNot, hLive⟩
    · exact Or.inl (hEnds.tail hLast)
    · rw [List.cons_append, List.mem_cons, not_or] at hNot
      refine Or.inr ⟨hLast ▸ hNot.2, hLast ▸ hLive.imp_right fun hMem => hKept _ hMem hNot.1⟩
  · intro hne
    refine (hSecondLast hne).imp_right ?_
    rintro ⟨hNot, hLive⟩
    simp only [List.mem_append, List.mem_cons, not_or] at hNot
    refine ⟨by simp [hNot], hLive.imp_right fun hMem => hKept _ hMem hNot.2.1⟩

/-- The other queue is threaded through the nodes that it had. -/
theorem second_enqueueAt (x : α) (hPair : Pair h q r ps qs l m) (hNot : p ∉ qs) :
    Threads (q.enqueueAt p x h).2 r qs m := by
  obtain ⟨hFirst, hSecond, hApart, hFirstLast, -⟩ := hPair
  refine hSecond.frame (fun d hd => ?_) fun d hd => mem_live_enqueueAt (hSecond.live d hd)
  refine enqueueAt_nodes x (ne_of_mem_of_not_mem hd hNot) fun hFull => ?_
  have hne : ps ≠ [] := by
    intro hNil
    rw [Queue.isempty, (chain_eq_zero_iff hFirst.chain).mpr hNil] at hFull
    cases hFull
  rintro rfl
  rcases hFirstLast hne with hEnds | hLost
  · have hLast := hEnds _ (List.getLast?_eq_getLast_of_ne_nil hne)
    exact hApart _ (hLast ▸ List.getLast_mem hne) hd
  · exact hLost.1 (List.mem_append_right _ hd)

/-- Its `last` is what it was. -/
theorem secondLast_enqueueAt {ps' : List Nat} (x : α) (hPair : Pair h q r ps qs l m)
    (hFree : p ≠ 0 → p ∉ h.live) (hSub : ∀ d ∈ ps', d ∈ ps ∨ d = p ∧ p ≠ 0) (hne : qs ≠ []) :
    r.Ends qs ∨ r.Lost (q.enqueueAt p x h).2.live (qs ++ ps') := by
  refine (hPair.secondLast hne).imp_right ?_
  rintro ⟨hUnused, hUse⟩
  refine ⟨fun hMem => ?_, hUse.imp_right mem_live_enqueueAt⟩
  rcases List.mem_append.mp hMem with hMem | hMem
  · exact hUnused (List.mem_append_left _ hMem)
  · rcases hSub _ hMem with hOld | ⟨hNew, hne⟩
    · exact hUnused (List.mem_append_right _ hOld)
    · rw [hNew] at hUse
      exact hUse.elim hne fun hIn => hFree hne hIn

/-- The element is appended if there is a node and `last` was not lost, and lost otherwise. -/
theorem enqueueAt (x : α) (hPair : Pair h q r ps qs l m) (hFree : p ≠ 0 → p ∉ h.live) :
    ∃ ps' l', Pair (q.enqueueAt p x h).2 (q.enqueueAt p x h).1 r ps' qs l' m ∧
      ((p ≠ 0 ∧ q.Ends ps) ∧ l' = l ++ [x] ∧ (q.enqueueAt p x h).1.Ends ps' ∨
        ¬ (p ≠ 0 ∧ q.Ends ps) ∧ l' = l) := by
  have hNot : p ∉ ps ++ qs := by
    intro hMem
    have hUsed : p ≠ 0 ∧ p ∈ h.live := by
      rcases List.mem_append.mp hMem with hp | hp
      · exact ⟨chain_ne_zero hPair.first.chain hp, hPair.first.live p hp⟩
      · exact ⟨chain_ne_zero hPair.second.chain hp, hPair.second.live p hp⟩
    exact hFree hUsed.1 hUsed.2
  rw [List.mem_append, not_or] at hNot
  have hOther := hPair.second_enqueueAt x hNot.2
  by_cases hServed : p ≠ 0 ∧ q.Ends ps
  · obtain ⟨hp, hEnds⟩ := hServed
    obtain ⟨q', h', hEq, -, hHolds, -⟩ := Holds.enqueueAt x ⟨hPair.first, hEnds⟩ hp (hFree hp)
    have hSecondLast := hPair.secondLast_enqueueAt x hFree (List.forall_mem_append.mpr
      ⟨fun d hd => Or.inl hd, fun d hd => Or.inr ⟨List.mem_singleton.mp hd, hp⟩⟩)
    rw [hEq] at hOther hSecondLast ⊢
    refine ⟨ps ++ [p], l ++ [x], ⟨hHolds.toThreads, hOther, fun d hd hMem => ?_,
      fun _ => Or.inl hHolds.last, hSecondLast⟩, Or.inl ⟨⟨hp, hEnds⟩, rfl, hHolds.last⟩⟩
    rcases List.mem_append.mp hd with hOld | hNew
    · exact hPair.apart d hOld hMem
    · exact hNot.2 (List.mem_singleton.mp hNew ▸ hMem)
  · have hThreads : Threads (q.enqueueAt p x h).2 (q.enqueueAt p x h).1 ps l := by
      by_cases hEnds : q.Ends ps
      · obtain rfl : p = 0 := not_not.mp fun hp => hServed ⟨hp, hEnds⟩
        exact Holds.enqueueAt_null x ⟨hPair.first, hEnds⟩
      · have hne : ps ≠ [] := by
          rintro rfl
          exact hEnds fun _ hd => nomatch hd
        have hOut := ((hPair.firstLast hne).resolve_left hEnds).1
        exact hPair.first.enqueueAt_lost x hne (fun hMem => hOut (List.mem_append_left _ hMem))
          hNot.1
    refine ⟨ps, l, ⟨hThreads, hOther, hPair.apart, fun _ => Or.inr ⟨?_, ?_⟩,
      hPair.secondLast_enqueueAt x hFree fun d hd => Or.inl hd⟩, Or.inr ⟨hServed, rfl⟩⟩
    · rw [enqueueAt_last, List.mem_append, not_or]
      exact hNot
    · rw [enqueueAt_last, enqueueAt_live]
      by_cases hp : p = 0
      · exact Or.inl hp
      · rw [if_neg hp]
        exact Or.inr List.mem_cons_self

end Pair

end Queue

end Juos.DataStructures
