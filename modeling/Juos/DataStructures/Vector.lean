import Mathlib.Order.Nat
import Mathlib.Data.List.Basic
import Juos.Machine.Run
import Mathlib.Algebra.Group.Nat.Defs

/-!
# The growable array

`Vector<T>` keeps three numbers apart: the capacity, the exponent `Log` that the next growth goes
by, and the length of the array it allocated. `copyElements` checks every access against the
arrays. `vectorBehaves_throughout_iff` says when a sequence of calls on any number of vectors does
what it does on lists: copies are constructed of full vectors only, and a full vector grows only
while `Log` is ahead of its size, which `reserve` does not see to.
-/

namespace Juos.DataStructures

open Machine

universe u v

/-- `buffer` holds the slots of the array, none at all for the null pointer. A slot that was never
written holds no element. -/
structure Vector (α : Type u) where
  size : Nat
  capacity : Nat
  log : Nat
  buffer : List (Option α)
  deriving DecidableEq, Repr

/-- `new T[n]`, which returns null when there is no room. -/
def newArray {α : Type u} (room : Bool) (n : Nat) : List (Option α) :=
  if room then List.replicate n none else []

/-- The loop `for (i = 0; i < n; i++) dst[i] = src[i]`, as long as both slots exist. -/
def copyElements {α : Type u} (src dst : List (Option α)) : Nat → Option (List (Option α))
  | 0 => some dst
  | n + 1 => (copyElements src dst n).bind fun d => src[n]?.bind fun x =>
      if n < d.length then some (d.set n x) else none

namespace Vector

variable {α : Type u}

def empty : Vector α := ⟨0, 0, 0, []⟩

/-- The copy constructor. -/
def copy (room : Bool) (v : Vector α) : Option (Vector α) :=
  (copyElements v.buffer (newArray room v.size) v.size).map fun b =>
    ⟨v.size, v.capacity, v.log, b⟩

/-- `operator =` from another vector, whose array outlives the one that is deleted. -/
def assign (room : Bool) (v : Vector α) : Option (Vector α) :=
  (copyElements v.buffer (newArray room v.capacity) v.size).map fun b =>
    ⟨v.size, v.capacity, v.log, b⟩

def reserve (room : Bool) (capacity : Nat) (v : Vector α) : Option (Vector α) :=
  (copyElements v.buffer (newArray room capacity) v.size).map fun b =>
    { v with capacity := capacity, buffer := b }

/-- `1 << Log`; the machine shifts by `Log` modulo 32. -/
def shiftOne (log : Nat) : Nat := 2 ^ (log % 32)

/-- The growth that precedes `push_back`. -/
def grow (room : Bool) (v : Vector α) : Option (Vector α) :=
  if v.capacity ≤ v.size then
    (v.reserve room (shiftOne v.log)).map fun v => { v with log := (v.log + 1) % 4294967296 }
  else some v

def pushBack (room : Bool) (x : α) (v : Vector α) : Option (Vector α) :=
  (v.grow room).bind fun v =>
    if v.size < v.buffer.length then
      some { v with size := (v.size + 1) % 4294967296, buffer := v.buffer.set v.size (some x) }
    else none

def popBack (v : Vector α) : Vector α := { v with size := (v.size + 4294967295) % 4294967296 }

/-- `clear` forgets the array, whatever the vector was. -/
def clear (_ : Vector α) : Vector α := ⟨0, 0, 0, []⟩

end Vector

/-! ## Copying -/

section Copying

variable {α : Type u} {src dst d : List (Option α)} {n : Nat}

theorem length_newArray (room : Bool) (n : Nat) :
    (newArray room n : List (Option α)).length = if room then n else 0 := by
  cases room with
  | false => rfl
  | true => exact List.length_replicate

theorem length_copyElements (h : copyElements src dst n = some d) : d.length = dst.length := by
  induction n generalizing d with
  | zero =>
    cases h
    rfl
  | succ n ih =>
    obtain ⟨e, he, hRest⟩ := Option.bind_eq_some_iff.mp h
    obtain ⟨x, -, hSet⟩ := Option.bind_eq_some_iff.mp hRest
    split_ifs at hSet with hInside
    cases hSet
    rw [List.length_set, ih he]

theorem copyElements_spec (hSrc : n ≤ src.length) (hDst : n ≤ dst.length) :
    ∃ d, copyElements src dst n = some d ∧ d.length = dst.length ∧ d.take n = src.take n := by
  induction n with
  | zero => exact ⟨dst, rfl, rfl, rfl⟩
  | succ n ih =>
    obtain ⟨d, hd, hLength, hTake⟩ := ih (Nat.le_of_succ_le hSrc) (Nat.le_of_succ_le hDst)
    have hInside : n < d.length := by omega
    have hSlot : src[n]? = some src[n] := List.getElem?_eq_getElem hSrc
    refine ⟨d.set n src[n], ?_, by rw [List.length_set, hLength], ?_⟩
    · rw [copyElements, hd, hSlot]
      exact if_pos hInside
    · rw [List.take_add_one, List.take_add_one, hSlot, List.getElem?_set_self hInside,
        List.take_set_of_le (Nat.le_refl n), hTake]

end Copying

/-! ## One vector -/

/-- The vector holds the list `l`, inside its array. -/
structure Vector.Holds {α : Type u} (v : Vector α) (l : List α) : Prop where
  slots : v.capacity ≤ v.buffer.length
  fits : v.size ≤ v.capacity
  bounded : v.capacity < 4294967296
  size_eq : v.size = l.length
  elements : v.buffer.take v.size = l.map some

namespace Vector.Holds

variable {α : Type u} {v w : Vector α} {l : List α} {room : Bool} {c : Nat} {x : α}

theorem empty : (Vector.empty : Vector α).Holds [] where
  slots := Nat.le_refl _
  fits := Nat.le_refl _
  bounded := Nat.zero_lt_succ _
  size_eq := rfl
  elements := rfl

/-- The elements are copied into an array that is long enough. -/
theorem copied (h : v.Holds l) {dst : List (Option α)} (hDst : v.size ≤ dst.length) :
    ∃ d, copyElements v.buffer dst v.size = some d ∧ d.length = dst.length ∧
      d.take v.size = l.map some := by
  rw [← h.elements]
  exact copyElements_spec (h.fits.trans h.slots) hDst

/-- Copying the vector into a new array of `n` slots, for a vector with capacity `c`. -/
theorem moved_iff (h : v.Holds l) {n log : Nat} (hc : v.size ≤ c) (hBounded : c < 4294967296)
    (hn : n ≤ c) :
    (∃ w, (copyElements v.buffer (newArray room n) v.size).map
        (fun b => (⟨v.size, c, log, b⟩ : Vector α)) = some w ∧ w.Holds l) ↔
      n = c ∧ (n = 0 ∨ room = true) := by
  have hLength := length_newArray (α := α) room n
  constructor
  · rintro ⟨w, hw, hHolds⟩
    obtain ⟨d, hd, rfl⟩ := Option.map_eq_some_iff.mp hw
    have hSlots : c ≤ d.length := hHolds.slots
    rw [length_copyElements hd, hLength] at hSlots
    cases room with
    | false =>
      obtain rfl : c = 0 := by simpa using hSlots
      exact ⟨by omega, Or.inl (by omega)⟩
    | true => exact ⟨Nat.le_antisymm hn hSlots, Or.inr rfl⟩
  · rintro ⟨rfl, hRoom⟩
    have hSlots : (newArray room n : List (Option α)).length = n := by
      rw [hLength]
      rcases hRoom with rfl | rfl
      · exact ite_self _
      · rfl
    obtain ⟨d, hd, hd', hTake⟩ := h.copied (hc.trans_eq hSlots.symm)
    refine ⟨⟨v.size, n, log, d⟩, by rw [hd]; rfl, ?_, hc, hBounded, h.size_eq, hTake⟩
    exact (hd'.trans hSlots).ge

theorem copy_iff (h : v.Holds l) : (∃ w, v.copy room = some w ∧ w.Holds l) ↔
    v.size = v.capacity ∧ (v.size = 0 ∨ room = true) :=
  h.moved_iff h.fits h.bounded h.fits

theorem assign_iff (h : v.Holds l) : (∃ w, v.assign room = some w ∧ w.Holds l) ↔
    v.capacity = 0 ∨ room = true :=
  (h.moved_iff h.fits h.bounded (Nat.le_refl _)).trans (and_iff_right rfl)

theorem reserve_iff (h : v.Holds l) (hc : v.size ≤ c) (hBounded : c < 4294967296) :
    (∃ w, v.reserve room c = some w ∧ w.Holds l) ↔ c = 0 ∨ room = true :=
  (h.moved_iff hc hBounded (Nat.le_refl _)).trans (and_iff_right rfl)

/-- The element is stored behind the others, where the array has a slot for it. -/
theorem store (h : v.Holds l) (hRoom : v.size < v.capacity) :
    v.size < v.buffer.length ∧
      Vector.Holds ⟨(v.size + 1) % 4294967296, v.capacity, v.log, v.buffer.set v.size (some x)⟩
        (l ++ [x]) := by
  have hInside := hRoom.trans_le h.slots
  have hSize : (v.size + 1) % 4294967296 = v.size + 1 :=
    Nat.mod_eq_of_lt (Nat.succ_le_of_lt hRoom |>.trans_lt h.bounded)
  rw [hSize]
  refine ⟨hInside, ?_, hRoom, h.bounded, ?_, ?_⟩
  · rw [List.length_set]
    exact h.slots
  · rw [List.length_append, h.size_eq]
    rfl
  · rw [List.take_add_one, List.getElem?_set_self hInside, List.take_set_of_le (Nat.le_refl _),
      h.elements, List.map_append]
    rfl

/-- A `push_back` that stays inside the array grew to one that takes the elements and one more. -/
theorem fits_of_pushBack (hPush : v.pushBack room x = some w) :
    v.capacity ≤ v.size → v.size < shiftOne v.log ∧ room = true := by
  intro hFull
  obtain ⟨u, hGrow, hStore⟩ := Option.bind_eq_some_iff.mp hPush
  rw [grow, if_pos hFull] at hGrow
  obtain ⟨u', hReserve, rfl⟩ := Option.map_eq_some_iff.mp hGrow
  obtain ⟨d, hd, rfl⟩ := Option.map_eq_some_iff.mp hReserve
  split_ifs at hStore with hInside
  have hLength : v.size < d.length := hInside
  rw [length_copyElements hd, length_newArray] at hLength
  cases room with
  | false => exact absurd hLength (Nat.not_lt_zero _)
  | true => exact ⟨hLength, rfl⟩

theorem pushBack_iff (h : v.Holds l) :
    (∃ w, v.pushBack room x = some w ∧ w.Holds (l ++ [x])) ↔
      (v.capacity ≤ v.size → v.size < shiftOne v.log ∧ room = true) := by
  constructor
  · rintro ⟨w, hw, -⟩
    exact fits_of_pushBack hw
  · intro hGrows
    rcases Nat.lt_or_ge v.size v.capacity with hLt | hFull
    · obtain ⟨hInside, hHolds⟩ := h.store (x := x) hLt
      refine ⟨_, ?_, hHolds⟩
      rw [pushBack, grow, if_neg (Nat.not_le.mpr hLt)]
      exact if_pos hInside
    · obtain ⟨hLt, hRoom⟩ := hGrows hFull
      have hBounded : shiftOne v.log < 4294967296 := by
        have hPow : shiftOne v.log ≤ 2 ^ 31 :=
          Nat.pow_le_pow_right (by decide) (Nat.le_of_lt_succ (Nat.mod_lt _ (by decide)))
        omega
      obtain ⟨w, hw, hHolds⟩ := (h.reserve_iff hLt.le hBounded).mpr (Or.inr hRoom)
      have hw' := hw
      obtain ⟨d, hd, rfl⟩ := Option.map_eq_some_iff.mp hw'
      have hGrown : Vector.Holds ⟨v.size, shiftOne v.log, (v.log + 1) % 4294967296, d⟩ l :=
        ⟨hHolds.slots, hHolds.fits, hHolds.bounded, hHolds.size_eq, hHolds.elements⟩
      obtain ⟨hInside, hPushed⟩ := hGrown.store (x := x) hLt
      refine ⟨_, ?_, hPushed⟩
      rw [pushBack, grow, if_pos hFull, hw]
      exact if_pos hInside

theorem pushBack (h : v.Holds l) (hPush : v.pushBack room x = some w) : w.Holds (l ++ [x]) := by
  obtain ⟨w', hw, hHolds⟩ := h.pushBack_iff.mpr (fits_of_pushBack hPush)
  exact Option.some.inj (hPush.symm.trans hw) ▸ hHolds

theorem popBack (h : v.Holds l) (hl : l ≠ []) : v.popBack.Holds l.dropLast := by
  have hPos : 0 < v.size := by
    rw [h.size_eq]
    exact List.length_pos_of_ne_nil hl
  have hSize : (v.size + 4294967295) % 4294967296 = v.size - 1 := by
    have hBounded := h.fits.trans_lt h.bounded
    omega
  have hLe : v.size - 1 ≤ v.size := Nat.sub_le _ _
  rw [Vector.popBack, hSize]
  refine ⟨h.slots, hLe.trans h.fits, h.bounded, ?_, ?_⟩
  · rw [List.length_dropLast, h.size_eq]
  · have hTake : v.buffer.take (v.size - 1) = (v.buffer.take v.size).take (v.size - 1) := by
      rw [List.take_take, Nat.min_eq_left hLe]
    rw [hTake, h.elements, h.size_eq, List.dropLast_eq_take, List.map_take]

theorem clear (v : Vector α) : v.clear.Holds [] := empty

end Vector.Holds

/-! ## Calls on any number of vectors -/

inductive VectorCall (ι : Type v) (α : Type u) where
  | construct (i : ι)
  | copyConstruct (i j : ι)
  | assign (i j : ι)
  | pushBack (i : ι) (x : α)
  | popBack (i : ι)
  | reserve (i : ι) (capacity : Nat)
  | clear (i : ι)
  deriving DecidableEq, Repr

namespace VectorCall

variable {ι : Type v} {α : Type u} [DecidableEq ι]

/-- What the call makes of the vectors; `room` says whether operator `new` finds room. -/
def exec (room : Bool) (s : ι → Vector α) : VectorCall ι α → Option (ι → Vector α)
  | construct i => some (Function.update s i Vector.empty)
  | copyConstruct i j => ((s j).copy room).map (Function.update s i)
  | assign i j => ((s j).assign room).map (Function.update s i)
  | pushBack i x => ((s i).pushBack room x).map (Function.update s i)
  | popBack i => some (Function.update s i (s i).popBack)
  | reserve i capacity => ((s i).reserve room capacity).map (Function.update s i)
  | clear i => some (Function.update s i (s i).clear)

/-- What the call means for lists. -/
def onLists (l : ι → List α) : VectorCall ι α → ι → List α
  | construct i => Function.update l i []
  | copyConstruct i j => Function.update l i (l j)
  | assign i j => Function.update l i (l j)
  | pushBack i x => Function.update l i (l i ++ [x])
  | popBack i => Function.update l i (l i).dropLast
  | reserve i _ => Function.update l i (l i)
  | clear i => Function.update l i []

/-- Copies are made of another vector, `pop_back` is called on one that is not empty, and
`reserve` asks for no fewer slots than there are elements. -/
def Legal (l : ι → List α) : VectorCall ι α → Prop
  | copyConstruct i j => i ≠ j
  | assign i j => i ≠ j
  | popBack i => l i ≠ []
  | reserve i capacity => (l i).length ≤ capacity ∧ capacity < 4294967296
  | _ => True

/-- A copy is constructed of a full vector, a full vector is pushed to while its exponent is ahead
of its size, and the arrays that are asked for are found. -/
def Fits (room : Bool) (s : ι → Vector α) : VectorCall ι α → Prop
  | copyConstruct _ j => (s j).size = (s j).capacity ∧ ((s j).size = 0 ∨ room = true)
  | assign _ j => (s j).capacity = 0 ∨ room = true
  | pushBack i _ => (s i).capacity ≤ (s i).size →
      (s i).size < Vector.shiftOne (s i).log ∧ room = true
  | reserve _ capacity => capacity = 0 ∨ room = true
  | _ => True

end VectorCall

section Runs

variable {ι : Type v} {α : Type u} [DecidableEq ι]

/-- The vectors next to the lists that they are compared with. -/
structure VectorSystem (ι : Type v) (α : Type u) where
  vectors : ι → Vector α
  lists : ι → List α

/-- A legal call that accesses no slot outside an array. -/
def VectorStep (t : VectorSystem ι α) (e : VectorCall ι α × Bool) (t' : VectorSystem ι α) : Prop :=
  e.1.Legal t.lists ∧ e.1.exec e.2 t.vectors = some t'.vectors ∧ t'.lists = e.1.onLists t.lists

theorem vectorStep_of_exec {t : VectorSystem ι α} {e : VectorCall ι α × Bool} {s : ι → Vector α}
    (hLegal : e.1.Legal t.lists) (hExec : e.1.exec e.2 t.vectors = some s) :
    VectorStep t e ⟨s, e.1.onLists t.lists⟩ := ⟨hLegal, hExec, rfl⟩

def VectorSystem.Refines (t : VectorSystem ι α) : Prop :=
  ∀ i, (t.vectors i).Holds (t.lists i)

/-- The call accesses no slot outside an array, and every vector then holds its list. -/
def VectorBehaves (t : VectorSystem ι α) (e : VectorCall ι α × Bool) : Prop :=
  e.1.Legal t.lists → ∃ s', e.1.exec e.2 t.vectors = some s' ∧
    (VectorSystem.mk s' (e.1.onLists t.lists)).Refines

def VectorFits (t : VectorSystem ι α) (e : VectorCall ι α × Bool) : Prop :=
  e.1.Legal t.lists → e.1.Fits e.2 t.vectors

variable {s : ι → Vector α} {l : ι → List α}

theorem refines_update (h : VectorSystem.Refines ⟨s, l⟩) {i : ι} {w : Vector α} {k : List α} :
    VectorSystem.Refines ⟨Function.update s i w, Function.update l i k⟩ ↔ w.Holds k := by
  constructor
  · intro hAll
    have hHere := hAll i
    dsimp only at hHere
    rwa [Function.update_self, Function.update_self] at hHere
  · intro hHolds j
    dsimp only
    by_cases hj : j = i
    · subst hj
      rwa [Function.update_self, Function.update_self]
    · rw [Function.update_of_ne hj, Function.update_of_ne hj]
      exact h j

/-- Only the vector that the call is made on matters. -/
theorem updated_iff (h : VectorSystem.Refines ⟨s, l⟩) {i : ι} {o : Option (Vector α)}
    {k : List α} : (∃ s', o.map (Function.update s i) = some s' ∧
      VectorSystem.Refines ⟨s', Function.update l i k⟩) ↔ ∃ w, o = some w ∧ w.Holds k := by
  constructor
  · rintro ⟨s', hs', hRefines⟩
    obtain ⟨w, hw, rfl⟩ := Option.map_eq_some_iff.mp hs'
    exact ⟨w, hw, (refines_update h).mp hRefines⟩
  · rintro ⟨w, rfl, hHolds⟩
    exact ⟨_, rfl, (refines_update h).mpr hHolds⟩

theorem vectorBehaves_iff {t : VectorSystem ι α} (h : t.Refines) (e : VectorCall ι α × Bool) :
    VectorBehaves t e ↔ VectorFits t e := by
  obtain ⟨s, l⟩ := t
  obtain ⟨c, room⟩ := e
  apply imp_congr_right
  intro hLegal
  cases c with
  | construct i => exact iff_of_true ⟨_, rfl, (refines_update h).mpr .empty⟩ trivial
  | copyConstruct i j => exact (updated_iff h).trans (h j).copy_iff
  | assign i j => exact (updated_iff h).trans (h j).assign_iff
  | pushBack i x => exact (updated_iff h).trans (h i).pushBack_iff
  | popBack i => exact iff_of_true ⟨_, rfl, (refines_update h).mpr ((h i).popBack hLegal)⟩ trivial
  | reserve i capacity =>
    obtain ⟨hLength, hBounded⟩ := hLegal
    have hSize : (s i).size ≤ capacity := (h i).size_eq.trans_le hLength
    exact (updated_iff h).trans ((h i).reserve_iff hSize hBounded)
  | clear i => exact iff_of_true ⟨_, rfl, (refines_update h).mpr (.clear _)⟩ trivial

/-- From vectors that were constructed empty, every legal call of a sequence stays inside the
arrays and does what it does on lists, exactly when copies are constructed of full vectors only,
full vectors grow only while `Log` is ahead of their size, and operator `new` finds room. -/
theorem vectorBehaves_throughout_iff (es : List (VectorCall ι α × Bool)) :
    Throughout VectorStep VectorBehaves ⟨fun _ => Vector.empty, fun _ => []⟩ es ↔
      Throughout VectorStep VectorFits ⟨fun _ => Vector.empty, fun _ => []⟩ es := by
  apply Throughout.iff (I := VectorSystem.Refines)
  · exact fun _ => Vector.Holds.empty
  · exact fun t e h => vectorBehaves_iff h e
  · rintro ⟨s, l⟩ e ⟨s', l'⟩ h hFits ⟨hLegal, hExec, rfl⟩
    obtain ⟨s'', hExec', hRefines⟩ := (vectorBehaves_iff h e).mpr hFits hLegal
    cases hExec.symm.trans hExec'
    exact hRefines

end Runs

/-- The copy of a vector with three elements and room for four has three slots, and the next
`push_back` writes behind them. -/
theorem not_vectorBehaves_copy : ∃ t : VectorSystem Bool Nat,
    Run VectorStep ⟨fun _ => Vector.empty, fun _ => []⟩
      [(.pushBack false 1, true), (.pushBack false 2, true), (.pushBack false 3, true),
        (.copyConstruct true false, true)] t ∧
    t.vectors true = ⟨3, 4, 3, [some 1, some 2, some 3]⟩ ∧
    ¬ VectorBehaves t (.pushBack true 4, true) ∧
    ¬ Throughout VectorStep VectorBehaves ⟨fun _ => Vector.empty, fun _ => []⟩
      [(.pushBack false 1, true), (.pushBack false 2, true), (.pushBack false 3, true),
        (.copyConstruct true false, true), (.pushBack true 4, true)] := by
  have hRun : ∃ t : VectorSystem Bool Nat, Run VectorStep ⟨fun _ => Vector.empty, fun _ => []⟩
      [(.pushBack false 1, true), (.pushBack false 2, true), (.pushBack false 3, true),
        (.copyConstruct true false, true)] t ∧
      t.vectors true = ⟨3, 4, 3, [some 1, some 2, some 3]⟩ := by
    refine ⟨_, .cons (vectorStep_of_exec trivial rfl) (.cons (vectorStep_of_exec trivial rfl)
      (.cons (vectorStep_of_exec trivial rfl) (.single (vectorStep_of_exec ?_ rfl)))), ?_⟩
    · exact Bool.noConfusion
    · rfl
  obtain ⟨t, hRun, hCopy⟩ := hRun
  have hNot : ¬ VectorBehaves t (.pushBack true 4, true) := by
    intro h
    obtain ⟨s', hExec, -⟩ := h trivial
    obtain ⟨w, hw, -⟩ := Option.map_eq_some_iff.mp hExec
    rw [hCopy] at hw
    cases hw
  exact ⟨t, hRun, hCopy, hNot, fun h => hNot (h _ _ [] t rfl hRun)⟩

end Juos.DataStructures
