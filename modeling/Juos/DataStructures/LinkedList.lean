import Juos.DataStructures.Queue
import Juos.Machine.DoublyLinked
import Juos.Machine.Run
import Mathlib.Data.List.Induction
import Mathlib.Data.List.Perm.Subperm
import Mathlib.Logic.Function.Basic

/-!
# The doubly linked list

The class template `list` over the nodes it allocates. `Holds s xs` says that the nodes of `xs` are
linked both ways and hold the items of `xs`. What `_insert_internal` leaves is described once
(`Inserted`); with it the node that was put in stands before the given position, or at the end
where that is null (`Holds.insert`), and the list can be walked in either direction
(`Holds.inOrder`).

The allocator is outside: each call gets the address of its new node, which is not in use, or null.
With null the walk over the list ends before the position (`not_inOrder_null`), so the list stays in
order exactly as long as there is a node for each call (`inOrder_throughout_iff`).
-/

namespace Juos.DataStructures

open Machine

universe u v

variable {α : Type u}

/-! ## Operations -/

structure DoubleLinkedNode (α : Type u) where
  val : α
  next : Nat
  prev : Nat

namespace DoubleLinkedNode

def setNext (nodes : Nat → DoubleLinkedNode α) (p q : Nat) : Nat → DoubleLinkedNode α :=
  Function.update nodes p { nodes p with next := q }

def setPrev (nodes : Nat → DoubleLinkedNode α) (p q : Nat) : Nat → DoubleLinkedNode α :=
  Function.update nodes p { nodes p with prev := q }

variable (nodes : Nat → DoubleLinkedNode α) (p q r : Nat)

/-- A field that the new node has in common with the old one. -/
theorem update_frame {β : Type v} {node : DoubleLinkedNode α} (field : DoubleLinkedNode α → β)
    (h : field node = field (nodes p)) :
    field (Function.update nodes p node r) = field (nodes r) := by
  rw [Function.update_apply]
  split_ifs with hr
  · rw [hr, h]
  · rfl

@[simp]
theorem setNext_next : (setNext nodes p q r).next = if r = p then q else (nodes r).next := by
  rw [setNext, Function.update_apply]
  split_ifs <;> rfl

@[simp]
theorem setNext_prev : (setNext nodes p q r).prev = (nodes r).prev :=
  update_frame nodes p r prev rfl

@[simp]
theorem setNext_val : (setNext nodes p q r).val = (nodes r).val :=
  update_frame nodes p r val rfl

@[simp]
theorem setPrev_prev : (setPrev nodes p q r).prev = if r = p then q else (nodes r).prev := by
  rw [setPrev, Function.update_apply]
  split_ifs <;> rfl

@[simp]
theorem setPrev_next : (setPrev nodes p q r).next = (nodes r).next :=
  update_frame nodes p r next rfl

@[simp]
theorem setPrev_val : (setPrev nodes p q r).val = (nodes r).val :=
  update_frame nodes p r val rfl

end DoubleLinkedNode

/-- The list, the nodes by address, and the addresses that are in use. -/
structure LinkedList (α : Type u) where
  mSize : UInt32
  mHead : Nat
  mTail : Nat
  nodes : Nat → DoubleLinkedNode α
  live : List Nat

namespace LinkedList

open DoubleLinkedNode

def empty (nodes : Nat → DoubleLinkedNode α) (live : List Nat) : LinkedList α :=
  ⟨0, 0, 0, nodes, live⟩

/-- `_insert_internal` where the allocator returns `n`, which may be null and is returned too. -/
def insertInternal (s : LinkedList α) (item : α) (pos n : Nat) : Nat × LinkedList α :=
  let nodes := setNext (Function.update s.nodes n ⟨item, 0, 0⟩) n pos
  let s := { s with mSize := s.mSize + 1, live := if n = 0 then s.live else n :: s.live }
  let s :=
    if pos ≠ 0 then { s with nodes := setPrev (setPrev nodes n (nodes pos).prev) pos n }
    else { s with nodes := setPrev nodes n s.mTail, mTail := n }
  if (s.nodes n).prev ≠ 0 then (n, { s with nodes := setNext s.nodes (s.nodes n).prev n })
  else (n, { s with mHead := n })

def pushBack (s : LinkedList α) (item : α) (n : Nat) : LinkedList α :=
  (s.insertInternal item 0 n).2

def begin (s : LinkedList α) : Nat := s.mHead

/-- The items from an iterator to `end()`. -/
def iterate (s : LinkedList α) : Nat → Nat → Option (List α)
  | 0, _ => none
  | fuel + 1, it =>
    if it = 0 then some [] else (s.iterate fuel (s.nodes it).next).map ((s.nodes it).val :: ·)

def next (s : LinkedList α) (p : Nat) : Nat := (s.nodes p).next

def prev (s : LinkedList α) (p : Nat) : Nat := (s.nodes p).prev

/-! ## The list of items -/

/-- A new item before the node at `pos`, or at the end. -/
def insertBefore (pos : Nat) (x : Nat × α) : List (Nat × α) → List (Nat × α)
  | [] => [x]
  | y :: ys => if y.1 = pos then x :: y :: ys else y :: insertBefore pos x ys

theorem insertBefore_split {pos : Nat} {xs : List (Nat × α)} (x : Nat × α)
    (hPos : pos = 0 ∧ (∀ y ∈ xs, y.1 ≠ 0) ∨ pos ∈ xs.map Prod.fst) :
    ∃ pre post, xs = pre ++ post ∧ insertBefore pos x xs = pre ++ x :: post ∧
      (post.map Prod.fst).headD 0 = pos := by
  induction xs with
  | nil =>
    refine ⟨[], [], rfl, rfl, ?_⟩
    rcases hPos with ⟨rfl, -⟩ | hMem
    · rfl
    · cases hMem
  | cons y ys ih =>
    rw [insertBefore]
    split_ifs with hy
    · exact ⟨[], y :: ys, rfl, rfl, hy⟩
    · have hLater : pos = 0 ∧ (∀ y ∈ ys, y.1 ≠ 0) ∨ pos ∈ ys.map Prod.fst := by
        rcases hPos with ⟨hNull, hNe⟩ | hMem
        · exact .inl ⟨hNull, fun z hz => hNe z (List.mem_cons_of_mem _ hz)⟩
        · exact .inr ((List.mem_cons.mp hMem).resolve_left fun hEq => hy hEq.symm)
      obtain ⟨pre, post, rfl, hInsert, hHead⟩ := ih hLater
      exact ⟨y :: pre, post, rfl, by rw [hInsert]; rfl, hHead⟩

/-- The nodes of `xs` are linked both ways and hold its items. -/
structure Holds (s : LinkedList α) (xs : List (Nat × α)) : Prop where
  linked : DoublyLinked s.next s.prev s.mHead s.mTail (xs.map Prod.fst)
  vals : ∀ x ∈ xs, (s.nodes x.1).val = x.2
  size : s.mSize.toNat = xs.length
  bound : ∀ x ∈ xs, x.1 < 4294967296
  live : ∀ x ∈ xs, x.1 ∈ s.live

section Insertion

variable {s : LinkedList α} {xs pre post : List (Nat × α)} {item : α} {pos n p q fuel : Nat}

theorem holds_empty (nodes : Nat → DoubleLinkedNode α) (live : List Nat) :
    Holds (empty nodes live) [] :=
  ⟨.nil _ _, nofun, rfl, nofun, nofun⟩

theorem Holds.ne_zero (h : Holds s xs) {x : Nat × α} (hx : x ∈ xs) : x.1 ≠ 0 :=
  h.linked.forward.ne_zero (List.mem_map_of_mem hx)

/-- What `_insert_internal` leaves between `q` and `pos`. -/
structure Inserted (s : LinkedList α) (item : α) (pos n q : Nat) (t : LinkedList α) : Prop where
  size : t.mSize = s.mSize + 1
  head : t.mHead = if q = 0 then n else s.mHead
  tail : t.mTail = if pos = 0 then n else s.mTail
  live : t.live = if n = 0 then s.live else n :: s.live
  val : (t.nodes n).val = item
  next : t.next n = pos
  prev : t.prev n = q
  before : q ≠ 0 → t.next q = n
  after : pos ≠ 0 → t.prev pos = n
  valOf : ∀ p, p ≠ n → (t.nodes p).val = (s.nodes p).val
  nextOf : ∀ p, p ≠ n → p ≠ q → t.next p = s.next p
  prevOf : ∀ p, p ≠ n → p ≠ pos → t.prev p = s.prev p

/-- What the links are after the two fields of the new node are set, and one of each neighbour. -/
theorem insertInternal_eq (hPos : n ≠ pos)
    (hq : (if pos = 0 then s.mTail else s.prev pos) = q) :
    (s.insertInternal item pos n).2 =
      { mSize := s.mSize + 1
        mHead := if q = 0 then n else s.mHead
        mTail := if pos = 0 then n else s.mTail
        nodes :=
          let nodes := Function.update s.nodes n ⟨item, pos, q⟩
          let nodes := if pos = 0 then nodes else setPrev nodes pos n
          if q = 0 then nodes else setNext nodes q n
        live := if n = 0 then s.live else n :: s.live } := by
  have hNew : setNext (Function.update s.nodes n ⟨item, 0, 0⟩) n pos =
      Function.update s.nodes n ⟨item, pos, 0⟩ := by
    rw [setNext, Function.update_self, Function.update_idem]
  have hPrev : ∀ p, setPrev (Function.update s.nodes n ⟨item, pos, 0⟩) n p =
      Function.update s.nodes n ⟨item, pos, p⟩ := fun p => by
    rw [setPrev, Function.update_self, Function.update_idem]
  rw [insertInternal, hNew]
  by_cases hNull : pos = 0
  · rw [if_pos hNull] at hq
    simp only [hNull, ne_eq, not_true_eq_false, if_false, if_true]
    subst hNull
    rw [hPrev, Function.update_self, hq]
    split_ifs <;> rfl
  · rw [if_neg hNull] at hq
    simp only [hNull, ne_eq, not_false_eq_true, if_true, if_false]
    have hSame : (s.nodes pos).prev = q := hq
    rw [hPrev, Function.update_of_ne hPos.symm, hSame, setPrev, Function.update_of_ne hPos,
      Function.update_self]
    split_ifs <;> rfl

theorem insertInternal_inserted (hPos : n ≠ pos)
    (hq : (if pos = 0 then s.mTail else s.prev pos) = q) (hne : n ≠ q) :
    Inserted s item pos n q (s.insertInternal item pos n).2 := by
  rw [insertInternal_eq hPos hq]
  constructor
  case size | head | tail | live => rfl
  case val | next | prev =>
    dsimp only [next, prev]
    split_ifs <;> simp [hPos, hne]
  case before =>
    intro hBefore
    dsimp only [next]
    rw [if_neg hBefore]
    simp
  case after =>
    intro hAfter
    dsimp only [prev]
    rw [if_neg hAfter]
    split_ifs <;> simp
  case valOf =>
    intro p hp
    dsimp only
    split_ifs <;> simp [hp]
  case nextOf =>
    intro p hp hpq
    dsimp only [next]
    split_ifs <;> simp [hp, hpq]
  case prevOf =>
    intro p hp hpPos
    dsimp only [prev]
    split_ifs <;> simp [hp, hpPos]

theorem forall_mem_insert {P : Nat × α → Prop} {x : Nat × α} :
    (∀ y ∈ pre ++ x :: post, P y) ↔ P x ∧ ∀ y ∈ pre ++ post, P y := by
  rw [List.forall_mem_append, List.forall_mem_cons, List.forall_mem_append]
  exact and_left_comm

/-- There are only so many addresses. -/
theorem length_lt_of_nodup {ps : List Nat} (hNodup : ps.Nodup) (hne : ∀ p ∈ ps, p ≠ 0)
    (hBound : ∀ p ∈ ps, p < 4294967296) : ps.length < 4294967296 := by
  have hSub : ps ⊆ List.range' 1 4294967295 := fun p hp => by
    have hPos := hne p hp
    have hLt := hBound p hp
    exact List.mem_range'_1.mpr (by omega)
  have hLength := (List.Nodup.subperm hNodup hSub).length_le
  rw [List.length_range'] at hLength
  exact Nat.lt_succ_of_le hLength

theorem Holds.live_of_mem (h : Holds s xs) (hp : p ∈ xs.map Prod.fst) : p ∈ s.live := by
  obtain ⟨x, hx, rfl⟩ := List.mem_map.mp hp
  exact h.live x hx

/-- The node that `_insert_internal` finds before the position. -/
theorem Holds.before_eq (h : Holds s (pre ++ post)) (hPos : (post.map Prod.fst).headD 0 = pos) :
    (if pos = 0 then s.mTail else s.prev pos) = (pre.map Prod.fst).getLastD 0 := by
  have hLinked := h.linked
  rw [List.map_append] at hLinked
  cases post with
  | nil =>
    obtain rfl : 0 = pos := hPos
    rw [if_pos rfl, hLinked.tail_eq, List.map_nil, List.append_nil]
  | cons x post =>
    obtain rfl : x.1 = pos := hPos
    rw [if_neg (h.ne_zero (by simp)), hLinked.prev_eq]

/-- A new item stands before the node at `pos`, or at the end. -/
theorem Holds.insert (h : Holds s (pre ++ post)) (hPos : (post.map Prod.fst).headD 0 = pos)
    (hn : n ≠ 0) (hBound : n < 4294967296) (hFresh : n ∉ s.live) :
    Holds (s.insertInternal item pos n).2 (pre ++ (n, item) :: post) := by
  have hLinked := h.linked
  rw [List.map_append] at hLinked
  have hNodes : ∀ p ∈ pre.map Prod.fst ++ post.map Prod.fst, p ≠ n := fun p hp hEq => by
    rw [← List.map_append, hEq] at hp
    exact hFresh (h.live_of_mem hp)
  obtain ⟨q, hq⟩ : ∃ q, (pre.map Prod.fst).getLastD 0 = q := ⟨_, rfl⟩
  have hne : n ≠ q := by
    rcases List.mem_cons.mp (hq ▸ List.getLastD_mem_cons) with hNull | hMem
    · exact hNull ▸ hn
    · exact (hNodes q (List.mem_append_left _ hMem)).symm
  have hnePos : n ≠ pos := by
    cases post with
    | nil => exact ne_of_ne_of_eq hn hPos
    | cons x post =>
      obtain rfl : x.1 = pos := hPos
      exact (hNodes x.1 (by simp)).symm
  have hIns : Inserted s item pos n q _ :=
    insertInternal_inserted hnePos ((h.before_eq hPos).trans hq) hne
  have hNew := hLinked.insert hn (fun hMem => hNodes n hMem rfl) hq hPos hIns.next hIns.prev
    hIns.before hIns.after hIns.nextOf hIns.prevOf
  rw [← hIns.head, ← hIns.tail] at hNew
  have hBounds : ∀ x ∈ pre ++ (n, item) :: post, x.1 < 4294967296 :=
    forall_mem_insert.mpr ⟨hBound, h.bound⟩
  have hAddresses : (pre ++ (n, item) :: post).map Prod.fst =
      pre.map Prod.fst ++ n :: post.map Prod.fst := by rw [List.map_append, List.map_cons]
  rw [← hAddresses] at hNew
  constructor
  case linked => exact hNew
  case vals =>
    refine forall_mem_insert.mpr ⟨hIns.val, fun x hx => ?_⟩
    have hOld := hNodes x.1 (by rw [← List.map_append]; exact List.mem_map_of_mem hx)
    exact (hIns.valOf x.1 hOld).trans (h.vals x hx)
  case size =>
    have hLength := length_lt_of_nodup hNew.nodup (fun p hp => hNew.forward.ne_zero hp)
      (List.forall_mem_map.mpr hBounds)
    have hSize := h.size
    rw [List.length_map] at hLength
    rw [List.length_append] at hSize hLength ⊢
    rw [List.length_cons] at hLength ⊢
    rw [hIns.size, UInt32.toNat_add, hSize, UInt32.toNat_one, Nat.mod_eq_of_lt (by omega),
      Nat.add_assoc]
  case bound => exact hBounds
  case live =>
    rw [hIns.live, if_neg hn]
    exact forall_mem_insert.mpr
      ⟨List.mem_cons_self, fun x hx => List.mem_cons_of_mem _ (h.live x hx)⟩

/-- With a null node the head and the forward links lead up to the position only. -/
theorem insertInternal_null (item : α) (hq : (if pos = 0 then s.mTail else s.prev pos) = q) :
    (s.insertInternal item pos 0).2.mHead = (if q = 0 then 0 else s.mHead) ∧
      (q ≠ 0 → (s.insertInternal item pos 0).2.next q = 0) ∧
      ∀ p, p ≠ 0 → p ≠ q → (s.insertInternal item pos 0).2.next p = s.next p := by
  rw [insertInternal]
  by_cases hNull : pos = 0
  · rw [if_pos hNull] at hq
    simp only [hNull, ne_eq, not_true_eq_false, if_false, setPrev_prev, if_true, hq]
    by_cases hZero : q = 0 <;> simp +contextual [hZero, next, Function.update_of_ne]
  · rw [if_neg hNull] at hq
    have hSame : (s.nodes pos).prev = q := hq
    have hne : (0 : Nat) ≠ pos := Ne.symm hNull
    simp only [ne_eq, hNull, not_false_eq_true, if_true, setPrev_prev, hne, if_false, setNext_prev,
      Function.update_of_ne, hSame]
    by_cases hZero : q = 0 <;> simp +contextual [hZero, next, Function.update_of_ne]

theorem Holds.path_null (h : Holds s (pre ++ post)) (hPos : (post.map Prod.fst).headD 0 = pos) :
    Path (s.insertInternal item pos 0).2.next (s.insertInternal item pos 0).2.mHead
      (pre.map Prod.fst) := by
  have hLinked := h.linked
  rw [List.map_append] at hLinked
  obtain ⟨hHead, hEnd, hOthers⟩ := insertInternal_null item (h.before_eq hPos)
  rw [hHead]
  exact hLinked.forward.cut hLinked.nodup rfl hEnd hOthers

theorem iterate_eq (hPath : Path s.next p (xs.map Prod.fst))
    (hVals : ∀ x ∈ xs, (s.nodes x.1).val = x.2) (hFuel : xs.length < fuel) :
    s.iterate fuel p = some (xs.map Prod.snd) := by
  induction xs generalizing p fuel with
  | nil =>
    obtain ⟨fuel, rfl⟩ := Nat.exists_eq_succ_of_ne_zero (Nat.ne_zero_of_lt hFuel)
    exact if_pos hPath
  | cons x xs ih =>
    obtain ⟨rfl, hne, hRest⟩ := hPath
    obtain ⟨fuel, rfl⟩ := Nat.exists_eq_succ_of_ne_zero (Nat.ne_zero_of_lt hFuel)
    have hLater := ih hRest (fun y hy => hVals y (List.mem_cons_of_mem _ hy))
      (Nat.lt_of_succ_lt_succ hFuel)
    rw [next] at hLater
    rw [iterate, if_neg hne, hLater, hVals x List.mem_cons_self, Option.map_some, List.map_cons]

end Insertion

/-! ## Sequences of insertions -/

inductive InsertCall (α : Type u) where
  | insertInternal (item : α) (pos : Nat)
  | pushBack (item : α)

namespace InsertCall

def item : InsertCall α → α
  | insertInternal item _ | pushBack item => item

/-- The node that the item is put before. -/
def pos : InsertCall α → Nat
  | insertInternal _ pos => pos
  | pushBack _ => 0

def exec (s : LinkedList α) (n : Nat) : InsertCall α → LinkedList α
  | insertInternal item pos => (s.insertInternal item pos n).2
  | pushBack item => s.pushBack item n

theorem exec_eq (c : InsertCall α) (s : LinkedList α) (n : Nat) :
    c.exec s n = (s.insertInternal c.item c.pos n).2 := by
  cases c <;> rfl

end InsertCall

def InsertStep (s : LinkedList α) (e : InsertCall α × Nat) (t : LinkedList α) : Prop :=
  t = e.1.exec s e.2

/-- A node of the list. -/
def InList (s : LinkedList α) (p : Nat) : Prop :=
  ∃ fuel ps, walk s.next fuel s.mHead = some ps ∧ p ∈ ps

/-- The allocator returns null or the address of a new node, and the position is null or in the
list. -/
def Allowed (s : LinkedList α) (e : InsertCall α × Nat) : Prop :=
  (e.2 ≠ 0 → e.2 < 4294967296 ∧ e.2 ∉ s.live) ∧ (e.1.pos = 0 ∨ s.InList e.1.pos)

/-- The items with their nodes, after a sequence of calls. -/
def insertedItems (calls : List (InsertCall α × Nat)) : List (Nat × α) :=
  calls.foldl (fun xs e => insertBefore e.1.pos (e.2, e.1.item) xs) []

variable {s t : LinkedList α} {xs : List (Nat × α)} {p : Nat}

theorem Holds.mem_of_inList (h : Holds s xs) (hp : s.InList p) : p ∈ xs.map Prod.fst := by
  obtain ⟨fuel, ps, hWalk, hMem⟩ := hp
  rwa [h.linked.forward.eq_of_walk hWalk] at hMem

theorem Holds.split {e : InsertCall α × Nat} (h : Holds s xs) (hAllowed : Allowed s e) :
    ∃ pre post, xs = pre ++ post ∧
      insertBefore e.1.pos (e.2, e.1.item) xs = pre ++ (e.2, e.1.item) :: post ∧
      (post.map Prod.fst).headD 0 = e.1.pos :=
  insertBefore_split (e.2, e.1.item)
    (hAllowed.2.imp (fun hNull => ⟨hNull, fun _ hx => h.ne_zero hx⟩) h.mem_of_inList)

theorem Holds.step {e : InsertCall α × Nat} (h : Holds s xs) (hNode : e.2 ≠ 0)
    (hStep : Guarded InsertStep Allowed s e t) :
    Holds t (insertBefore e.1.pos (e.2, e.1.item) xs) := by
  obtain ⟨hAllowed, rfl⟩ := hStep
  rw [InsertCall.exec_eq]
  obtain ⟨pre, post, rfl, hInsert, hHead⟩ := h.split hAllowed
  obtain ⟨hBound, hFresh⟩ := hAllowed.1 hNode
  rw [hInsert]
  exact h.insert hHead hNode hBound hFresh

theorem holds_run {calls : List (InsertCall α × Nat)} {nodes : Nat → DoubleLinkedNode α}
    {live : List Nat} (hRun : Run (Guarded InsertStep Allowed) (empty nodes live) calls s)
    (hNodes : ∀ e ∈ calls, e.2 ≠ 0) : Holds s (insertedItems calls) := by
  induction hRun with
  | refl => exact holds_empty nodes live
  | tail prior last ih =>
    obtain ⟨hBefore, hLast⟩ := List.forall_mem_append.mp hNodes
    rw [insertedItems, List.foldl_append]
    exact (ih hBefore).step (hLast _ List.mem_cons_self) last

/-- The list is walked forwards and backwards over the same nodes, its iterators yield the items in
order, and `m_size` is their number. -/
def InOrder (s : LinkedList α) (items : List α) : Prop :=
  ∃ fuel nodes, walk s.next fuel s.mHead = some nodes ∧
    walk s.prev fuel s.mTail = some nodes.reverse ∧ s.iterate fuel s.begin = some items ∧
    s.mSize.toNat = items.length

theorem Holds.inOrder (h : Holds s xs) : InOrder s (xs.map Prod.snd) := by
  have hForward := h.linked.forward
  refine ⟨xs.length + 1, xs.map Prod.fst, hForward.walk_eq ?_, h.linked.backward.walk_eq ?_,
    iterate_eq hForward h.vals (Nat.lt_succ_self _), ?_⟩
  · rw [List.length_map]
    exact Nat.lt_succ_self _
  · rw [List.length_reverse, List.length_map]
    exact Nat.lt_succ_self _
  · rw [h.size, List.length_map]

theorem length_iterate {fuel : Nat} {items : List α} {ps : List Nat}
    (hItems : s.iterate fuel p = some items) (hWalk : walk s.next fuel p = some ps) :
    items.length = ps.length := by
  induction fuel generalizing p items ps with
  | zero => cases hItems
  | succ fuel ih =>
    rw [iterate] at hItems
    rw [walk] at hWalk
    split at hItems
    · rename_i hEnd
      rw [if_pos hEnd] at hWalk
      cases hItems
      cases hWalk
      rfl
    · rename_i hMore
      rw [if_neg hMore] at hWalk
      obtain ⟨items', hItems', rfl⟩ := Option.map_eq_some_iff.mp hItems
      obtain ⟨ps', hWalk', rfl⟩ := Option.map_eq_some_iff.mp hWalk
      rw [List.length_cons, List.length_cons, ih hItems' hWalk']

/-- A call that gets a null node leaves too few items. -/
theorem not_inOrder_null {e : InsertCall α × Nat} (h : Holds s xs) (hNull : e.2 = 0)
    (hStep : Guarded InsertStep Allowed s e t) :
    ¬ InOrder t ((insertBefore e.1.pos (e.2, e.1.item) xs).map Prod.snd) := by
  obtain ⟨hAllowed, rfl⟩ := hStep
  obtain ⟨pre, post, rfl, hInsert, hHead⟩ := h.split hAllowed
  rw [InsertCall.exec_eq, hInsert, hNull]
  rintro ⟨fuel, ps, hWalk, -, hItems, -⟩
  have hLength := length_iterate hItems hWalk
  rw [(h.path_null hHead).eq_of_walk hWalk] at hLength
  simp at hLength

/-- The list is in order after every call exactly if there is a node for each. -/
theorem inOrder_throughout_iff {calls : List (InsertCall α × Nat)}
    {nodes : Nat → DoubleLinkedNode α} {live : List Nat}
    (hRun : Run (Guarded InsertStep Allowed) (empty nodes live) calls s) :
    (∀ pre post t, calls = pre ++ post →
      Run (Guarded InsertStep Allowed) (empty nodes live) pre t →
        InOrder t ((insertedItems pre).map Prod.snd)) ↔ ∀ e ∈ calls, e.2 ≠ 0 := by
  constructor
  · intro hAll
    have hEach : ∀ pre post, calls = pre ++ post → ∀ e ∈ pre, e.2 ≠ 0 := by
      intro pre
      induction pre using List.reverseRecOn with
      | nil => exact fun _ _ _ he => nomatch he
      | append_singleton pre e ih =>
        intro post hSplit
        have hBefore := ih (e :: post) (by rw [hSplit, List.append_assoc, List.singleton_append])
        refine List.forall_mem_append.mpr ⟨hBefore, fun e' he' => ?_⟩
        rw [List.mem_singleton.mp he']
        intro hNull
        rw [hSplit] at hRun
        obtain ⟨t, hPrefix, -⟩ := hRun.split
        obtain ⟨u, hPre, hLast⟩ := hPrefix.of_append
        have hOrder := hAll _ post t hSplit hPrefix
        rw [insertedItems, List.foldl_append] at hOrder
        exact not_inOrder_null (holds_run hPre hBefore) hNull hLast hOrder
    exact hEach calls [] (List.append_nil calls).symm
  · rintro hNodes pre post t rfl hPre
    exact (holds_run hPre fun e he => hNodes e (List.mem_append_left _ he)).inOrder

/-- An item between two others. -/
theorem inOrder_three : ∃ s : LinkedList Nat, Run (Guarded InsertStep Allowed)
      (empty (fun _ => ⟨0, 0, 0⟩) [])
      [(InsertCall.pushBack 5, 0x10), (.pushBack 6, 0x20), (.insertInternal 7 0x20, 0x30)] s ∧
    InOrder s [5, 7, 6] := by
  have hRun : ∃ s, Run (Guarded InsertStep Allowed) (empty (fun _ => ⟨0, 0, 0⟩) [])
      [(InsertCall.pushBack 5, 0x10), (.pushBack 6, 0x20), (.insertInternal 7 0x20, 0x30)] s :=
    ⟨_, .cons ⟨⟨by decide, .inl rfl⟩, rfl⟩ (.cons ⟨⟨by decide, .inl rfl⟩, rfl⟩
      (.single ⟨⟨by decide, .inr ⟨3, [0x10, 0x20], rfl, by decide⟩⟩, rfl⟩))⟩
  obtain ⟨s, hRun⟩ := hRun
  exact ⟨s, hRun, (inOrder_throughout_iff hRun).mpr (by decide) _ [] s rfl hRun⟩

/-- An item that is added while all small blocks are in use is not in the list. -/
theorem not_inOrder_full : ∃ s : LinkedList Nat, Run (Guarded InsertStep Allowed)
      (empty (fun _ => ⟨0, 0, 0⟩) smallBlocks)
      [(InsertCall.pushBack 5, kernelPool.new smallBlocks)] s ∧ ¬ InOrder s [5] := by
  have hNone : kernelPool.new smallBlocks = 0 := by decide +kernel
  rw [hNone]
  have hStep : Guarded InsertStep Allowed (empty (fun _ => ⟨0, 0, 0⟩) smallBlocks)
      (InsertCall.pushBack 5, 0) _ := ⟨⟨fun h => absurd rfl h, .inl rfl⟩, rfl⟩
  exact ⟨_, .single hStep, not_inOrder_null (holds_empty _ _) rfl hStep⟩

end LinkedList

end Juos.DataStructures
