import Mathlib.Logic.Function.Basic
import Mathlib.Tactic.Common

/-!
# The static stack

The class template `static_stack` over an array of `Size` elements, with its two signed counters. On
a stack that `Holds` some items every call answers as a bounded LIFO does, except for one: `push`
on an empty stack compares `m_top = -1` as an unsigned number with `Size - 1`, and takes the stack
to be full (`exec_of_holds`, `push_empty`). A new stack is empty, so no `push` on it ever succeeds
(`isLifo_iff`).
-/

namespace Juos.DataStructures

universe u

variable {α : Type u} {Size : UInt32}

/-! ## Operations -/

structure StaticStack (α : Type u) (Size : UInt32) where
  mArr : Fin Size.toNat → α
  mSize : Int
  mTop : Int

namespace StaticStack

/-- The constructor sets `m_top` only; the rest is what was in memory. -/
def init (mArr : Fin Size.toNat → α) (mSize : Int) : StaticStack α Size := ⟨mArr, mSize, -1⟩

/-- A signed number that is compared with an unsigned one. -/
def toUnsigned (n : Int) : Nat := (n % 4294967296).toNat

/-- Counting up; the overflow of a signed number is undefined. -/
def increment (n : Int) : Option Int := if n < 2147483647 then some (n + 1) else none

def decrement (n : Int) : Option Int := if -2147483648 < n then some (n - 1) else none

/-- `none` outside the array. -/
def index (i : Int) : Option (Fin Size.toNat) :=
  if h : 0 ≤ i ∧ i.toNat < Size.toNat then some ⟨i.toNat, h.2⟩ else none

def push (item : α) (s : StaticStack α Size) : Option (Bool × StaticStack α Size) :=
  if (Size - 1).toNat ≤ toUnsigned s.mTop then some (false, s)
  else
    (increment s.mSize).bind fun size => (increment s.mTop).bind fun top =>
      (index top).map fun i => (true, ⟨Function.update s.mArr i item, size, top⟩)

def pop [Inhabited α] (s : StaticStack α Size) : Option (α × StaticStack α Size) :=
  if s.mTop < 0 then some (default, s)
  else
    (decrement s.mSize).bind fun size => (index s.mTop).bind fun i =>
      (decrement s.mTop).map fun top => (s.mArr i, ⟨s.mArr, size, top⟩)

def peek [Inhabited α] (s : StaticStack α Size) : Option α :=
  if s.mTop < 0 then some default else (index s.mTop).map s.mArr

def isEmpty (s : StaticStack α Size) : Bool := s.mTop < 0

def size (s : StaticStack α Size) : Int := s.mSize

end StaticStack

/-! ## The bounded LIFO -/

inductive StackCall (α : Type u) where
  | push (item : α)
  | pop
  | peek

namespace StackCall

variable [Inhabited α]

/-- What the call answers, and the stack after it; `none` is undefined behaviour. -/
def exec (s : StaticStack α Size) : StackCall α → Option ((Bool ⊕ α) × StaticStack α Size)
  | push item => (s.push item).map fun r => (.inl r.1, r.2)
  | pop => s.pop.map fun r => (.inr r.1, r.2)
  | peek => s.peek.map fun item => (.inr item, s)

/-- The same call on a list of at most `bound` items, the last one that was pushed first. -/
def lifo (bound : Nat) (items : List α) : StackCall α → (Bool ⊕ α) × List α
  | push item => if items.length < bound then (.inl true, item :: items) else (.inl false, items)
  | pop => (.inr (items.headD default), items.tail)
  | peek => (.inr (items.headD default), items)

end StackCall

namespace StaticStack

/-- What the stack tells about the number of its items. -/
def Counts (s : StaticStack α Size) (items : List α) : Prop :=
  s.isEmpty = items.isEmpty ∧ s.size = items.length

/-- From `s` every call answers as it does on the list of items, and the counts agree before and
after it. -/
def IsLifo [Inhabited α] (s : StaticStack α Size) (items : List α) : List (StackCall α) → Prop
  | [] => Counts s items
  | c :: cs => Counts s items ∧ ∃ s', c.exec s = some ((c.lifo Size.toNat items).1, s') ∧
      IsLifo s' (c.lifo Size.toNat items).2 cs

/-- No item is pushed while there is none. -/
def NeverOntoEmpty [Inhabited α] (bound : Nat) (items : List α) : List (StackCall α) → Prop
  | [] => True
  | c :: cs => (items = [] → ∀ item, c ≠ .push item) ∧
      NeverOntoEmpty bound (c.lifo bound items).2 cs

/-- The items lie in the array, the last one that was pushed at `m_top`. -/
structure Holds (s : StaticStack α Size) (items : List α) : Prop where
  room : items.length ≤ Size.toNat
  int : items.length ≤ 2147483647
  top : s.mTop = items.length - 1
  size : s.mSize = items.length
  items : ∀ k (hk : k < Size.toNat), k < items.length → items.reverse[k]? = some (s.mArr ⟨k, hk⟩)

variable {s s' : StaticStack α Size} {items : List α} {item : α} {c : StackCall α}
  {calls : List (StackCall α)} {i : Int} {n : Nat}

theorem holds_init (mArr : Fin Size.toNat → α) : Holds (init mArr 0) [] :=
  ⟨Nat.zero_le _, Nat.zero_le _, rfl, rfl, fun k _ hk => absurd hk (Nat.not_lt_zero k)⟩

theorem toUnsigned_natCast (h : n ≤ 2147483647) : toUnsigned n = n := by
  unfold toUnsigned
  omega

theorem index_natCast (h : n < Size.toNat) : index n = some (⟨n, h⟩ : Fin Size.toNat) := by
  rw [index, dif_pos ⟨Int.natCast_nonneg n, h⟩]
  rfl

theorem increment_natCast (h : n < 2147483647) : increment n = some ((n + 1 : Nat) : Int) :=
  if_pos (by omega)

theorem toNat_sub_one (hSize : 0 < Size.toNat) : (Size - 1).toNat = Size.toNat - 1 :=
  UInt32.toNat_sub_of_le _ _ hSize

theorem Holds.counts (h : Holds s items) : Counts s items := by
  refine ⟨?_, h.size⟩
  rw [isEmpty, h.top]
  cases items with
  | nil => rfl
  | cons item items =>
    rw [List.length_cons, List.isEmpty_cons, decide_eq_false_iff_not]
    omega

/-- A new stack passes for a full one. -/
theorem push_empty (hTop : s.mTop = -1) : s.push item = some (false, s) := by
  have hLt := (Size - 1).toNat_lt
  refine if_pos ?_
  rw [hTop]
  exact Nat.le_of_lt_succ hLt

theorem Holds.top_eq (h : Holds s items) (hPos : items ≠ []) :
    s.mTop = ((items.length - 1 : Nat) : Int) := by
  have hLength := List.length_pos_iff.mpr hPos
  rw [h.top]
  omega

/-- The comparison that `push` makes, on a stack that is not empty. -/
theorem Holds.full_iff (h : Holds s items) (hPos : items ≠ []) :
    (Size - 1).toNat ≤ toUnsigned s.mTop ↔ Size.toNat ≤ items.length := by
  have hLength := List.length_pos_iff.mpr hPos
  have hInt := h.int
  rw [h.top_eq hPos, toUnsigned_natCast (by omega),
    toNat_sub_one (Nat.lt_of_lt_of_le hLength h.room)]
  omega

theorem Holds.push_full (h : Holds s items) (hPos : items ≠ [])
    (hFull : Size.toNat ≤ items.length) : s.push item = some (false, s) :=
  if_pos ((h.full_iff hPos).mpr hFull)

/-- The last item in the order of the array. -/
theorem getElem?_reverse_cons (item : α) (items : List α) :
    (item :: items).reverse[items.length]? = some item := by
  rw [List.reverse_cons, List.getElem?_append_right (Nat.le_of_eq List.length_reverse),
    List.length_reverse, Nat.sub_self]
  rfl

theorem getElem?_reverse_cons_of_lt {k : Nat} (hk : k < items.length) :
    (item :: items).reverse[k]? = items.reverse[k]? := by
  rw [List.reverse_cons, List.getElem?_append_left (by rwa [List.length_reverse])]

theorem Holds.push (h : Holds s items) (item : α) (hPos : items ≠ [])
    (hRoom : items.length < Size.toNat) (hInt : items.length < 2147483647) :
    ∃ s', s.push item = some (true, s') ∧ Holds s' (item :: items) := by
  have hNotFull := mt (h.full_iff hPos).mp (Nat.not_le_of_lt hRoom)
  have hNew : items.length - 1 + 1 = items.length :=
    Nat.sub_add_cancel (List.length_pos_iff.mpr hPos)
  rw [StaticStack.push, if_neg hNotFull, h.size, h.top_eq hPos, increment_natCast hInt,
    Option.bind_some, increment_natCast (by omega), Option.bind_some, hNew, index_natCast hRoom,
    Option.map_some]
  refine ⟨_, rfl, hRoom, hInt, ?_, rfl, fun k hk hLt => ?_⟩
  · dsimp only
    rw [List.length_cons]
    omega
  · dsimp only
    rcases Nat.lt_succ_iff_lt_or_eq.mp hLt with hOld | rfl
    · rw [Function.update_of_ne (fun hEq => absurd (Fin.mk.inj hEq) (Nat.ne_of_lt hOld)),
        getElem?_reverse_cons_of_lt hOld]
      exact h.items k hk hOld
    · rw [Function.update_self, getElem?_reverse_cons]

/-- The item at `m_top`. -/
theorem Holds.top_item (h : Holds s (item :: items)) :
    ∃ i : Fin Size.toNat, index s.mTop = some i ∧ s.mArr i = item := by
  have hRoom : items.length < Size.toNat := h.room
  have hTop : s.mTop = (items.length : Int) := by rw [h.top, List.length_cons]; omega
  have hItem := h.items items.length hRoom (Nat.lt_succ_self _)
  refine ⟨_, by rw [hTop, index_natCast hRoom], ?_⟩
  rw [getElem?_reverse_cons] at hItem
  exact (Option.some.inj hItem).symm

theorem Holds.top_nonneg (h : Holds s (item :: items)) : ¬ s.mTop < 0 := by
  rw [h.top, List.length_cons]
  omega

theorem Holds.top_neg (h : Holds s []) : s.mTop < 0 := by
  rw [h.top]
  exact Int.negSucc_lt_zero 0

section Calls

variable [Inhabited α]

theorem Holds.peek (h : Holds s items) : s.peek = some (items.headD default) := by
  cases items with
  | nil => exact if_pos h.top_neg
  | cons item items =>
    obtain ⟨i, hIndex, hItem⟩ := h.top_item
    rw [StaticStack.peek, if_neg h.top_nonneg, hIndex, Option.map_some, hItem]
    rfl

theorem Holds.pop (h : Holds s items) :
    ∃ s', s.pop = some (items.headD default, s') ∧ Holds s' items.tail := by
  cases items with
  | nil => exact ⟨s, if_pos h.top_neg, h⟩
  | cons item items =>
    obtain ⟨i, hIndex, hItem⟩ := h.top_item
    have hInt : items.length + 1 ≤ 2147483647 := h.int
    have hTop := h.top
    have hSize := h.size
    rw [List.length_cons] at hTop hSize
    rw [StaticStack.pop, if_neg h.top_nonneg, decrement, if_pos (by omega), Option.bind_some,
      hIndex, Option.bind_some, decrement, if_pos (by omega), Option.map_some, hItem]
    have hRoom : items.length < Size.toNat := h.room
    refine ⟨_, rfl, Nat.le_of_lt hRoom, Nat.le_of_succ_le hInt, ?_, ?_, fun k hk hLt => ?_⟩
    · dsimp only [List.tail_cons]
      omega
    · dsimp only [List.tail_cons]
      omega
    · have hItem := h.items k hk (Nat.lt_succ_of_lt hLt)
      exact (getElem?_reverse_cons_of_lt hLt).symm.trans hItem

/-- Every call but a `push` on an empty stack is the one of the bounded LIFO. -/
theorem exec_of_holds (h : Holds s items) (hInt : Size.toNat ≤ 2147483647 ∨ items = [])
    (hCall : items = [] → ∀ item, c ≠ .push item) :
    ∃ s', c.exec s = some ((c.lifo Size.toNat items).1, s') ∧
      Holds s' (c.lifo Size.toNat items).2 := by
  cases c with
  | push item =>
    have hPos : items ≠ [] := fun hNil => hCall hNil item rfl
    rw [StackCall.exec, StackCall.lifo]
    split_ifs with hRoom
    · have hBound := hInt.resolve_right hPos
      obtain ⟨s', hPush, hHolds⟩ := h.push item hPos hRoom (by omega)
      exact ⟨s', by rw [hPush, Option.map_some], hHolds⟩
    · exact ⟨s, by rw [h.push_full hPos (Nat.le_of_not_lt hRoom), Option.map_some], h⟩
  | pop =>
    obtain ⟨s', hPop, hHolds⟩ := h.pop
    exact ⟨s', by rw [StackCall.exec, hPop, Option.map_some]; rfl, hHolds⟩
  | peek => exact ⟨s, by rw [StackCall.exec, h.peek, Option.map_some]; rfl, h⟩

theorem lifo_nil {bound : Nat} (hCall : ∀ item, c ≠ .push item) : (c.lifo bound []).2 = [] := by
  cases c with
  | push item => exact absurd rfl (hCall item)
  | pop | peek => rfl

theorem int_lifo (hInt : Size.toNat ≤ 2147483647 ∨ items = [])
    (hCall : items = [] → ∀ item, c ≠ .push item) :
    Size.toNat ≤ 2147483647 ∨ (c.lifo Size.toNat items).2 = [] := by
  refine hInt.imp_right ?_
  rintro rfl
  exact lifo_nil (hCall rfl)

/-- The calls from a stack that holds some items. -/
theorem isLifo_of_holds (h : Holds s items) (hInt : Size.toNat ≤ 2147483647 ∨ items = [])
    (hSize : 0 < Size.toNat) :
    IsLifo s items calls ↔ NeverOntoEmpty Size.toNat items calls := by
  induction calls generalizing s items with
  | nil => exact iff_of_true h.counts trivial
  | cons c cs ih =>
    constructor
    · rintro ⟨-, s', hExec, hRest⟩
      have hCall : items = [] → ∀ item, c ≠ .push item := by
        rintro rfl item rfl
        rw [StackCall.exec, push_empty h.top, StackCall.lifo,
          if_pos (show [].length < Size.toNat from hSize)] at hExec
        cases hExec
      obtain ⟨t, hExec', hHolds⟩ := exec_of_holds h hInt hCall
      obtain rfl : t = s' := by simpa [hExec'] using hExec
      exact ⟨hCall, (ih hHolds (int_lifo hInt hCall)).mp hRest⟩
    · rintro ⟨hCall, hRest⟩
      obtain ⟨t, hExec, hHolds⟩ := exec_of_holds h hInt hCall
      exact ⟨h.counts, t, hExec, (ih hHolds (int_lifo hInt hCall)).mpr hRest⟩

theorem neverOntoEmpty_nil (bound : Nat) :
    NeverOntoEmpty bound [] calls ↔ ∀ item : α, .push item ∉ calls := by
  induction calls with
  | nil => exact iff_of_true trivial fun _ => List.not_mem_nil
  | cons c cs ih =>
    constructor
    · rintro ⟨hCall, hRest⟩ item hMem
      rw [lifo_nil (hCall rfl)] at hRest
      rcases List.mem_cons.mp hMem with hFirst | hLater
      · exact hCall rfl item hFirst.symm
      · exact ih.mp hRest item hLater
    · intro h
      have hCall : ∀ item, c ≠ .push item := fun item hc => h item (hc ▸ List.mem_cons_self)
      refine ⟨fun _ => hCall, ?_⟩
      rw [lifo_nil hCall]
      exact ih.mpr fun item hMem => h item (List.mem_cons_of_mem _ hMem)

/-- A new stack is a bounded LIFO for exactly the calls that push nothing, if `m_size` happens to be
zero. -/
theorem isLifo_iff (mArr : Fin Size.toNat → α) (mSize : Int) (calls : List (StackCall α))
    (hSize : 1 ≤ Size.toNat) :
    IsLifo (init mArr mSize) [] calls ↔ mSize = 0 ∧ ∀ item, .push item ∉ calls := by
  have hZero : IsLifo (init mArr mSize) [] calls → mSize = 0 := by
    cases calls with
    | nil => exact fun h => h.2
    | cons c cs => exact fun h => h.1.2
  have hHolds : IsLifo (init mArr 0) [] calls ↔ _ :=
    isLifo_of_holds (holds_init mArr) (.inr rfl) hSize
  rw [neverOntoEmpty_nil] at hHolds
  constructor
  · intro h
    obtain rfl := hZero h
    exact ⟨rfl, hHolds.mp h⟩
  · rintro ⟨rfl, hNone⟩
    exact hHolds.mpr hNone

/-- Three places, of which none is ever used. -/
theorem isLifo_three : IsLifo (init (fun _ => 7) 0 : StaticStack Nat 3) [] [.pop, .peek] :=
  (isLifo_iff (fun _ => 7) 0 _ (by decide)).mpr ⟨rfl, fun _ => by simp⟩

end Calls

/-- The first item that is pushed on a new stack. -/
theorem not_isLifo_push : ¬ ∀ (Size : UInt32) (mArr : Fin Size.toNat → Nat)
    (calls : List (StackCall Nat)), 1 ≤ Size.toNat → IsLifo (init mArr 0) [] calls := by
  intro h
  obtain ⟨-, s', hExec, -⟩ := h 1 (fun _ => 0) [.push 5] (by decide)
  cases hExec

end StaticStack

end Juos.DataStructures
