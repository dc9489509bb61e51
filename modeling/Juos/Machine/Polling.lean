import Mathlib.Tactic.Common

/-!
# Polling

A loop that reads one answer after another until one of them meets a condition. `FirstFrom p i j`
says where it stops; `pollFrom` is the loop itself, bounded by the number of answers it may read,
and with enough of them it stops there and nowhere else (`pollFrom_of_firstFrom`).
-/

namespace Machine

universe u

variable {α : Type u} {p : α → Bool} {answers : Nat → α} {i j k fuel : Nat}

/-- `j` is the first index from `i` on whose answer meets `p`. -/
structure FirstFrom (p : α → Bool) (answers : Nat → α) (i j : Nat) : Prop where
  le : i ≤ j
  meets : p (answers j) = true
  before : ∀ k, i ≤ k → k < j → p (answers k) = false

theorem FirstFrom.unique (hj : FirstFrom p answers i j) (hk : FirstFrom p answers i k) :
    j = k := by
  rcases Nat.lt_trichotomy j k with hLt | hEq | hGt
  · exact absurd hj.meets (by simp [hk.before j hj.le hLt])
  · exact hEq
  · exact absurd hk.meets (by simp [hj.before k hk.le hGt])

theorem FirstFrom.here (h : p (answers i) = true) : FirstFrom p answers i i :=
  ⟨Nat.le_refl i, h, fun _ hLe hLt => absurd hLt (Nat.not_lt_of_le hLe)⟩

theorem FirstFrom.later (hNot : p (answers i) = false) (h : FirstFrom p answers (i + 1) j) :
    FirstFrom p answers i j := by
  refine ⟨Nat.le_of_succ_le h.le, h.meets, fun k hLe hLt => ?_⟩
  rcases Nat.eq_or_lt_of_le hLe with rfl | hAfter
  · exact hNot
  · exact h.before k hAfter hLt

/-- The index of the answer that the loop stops at, with at most `fuel` answers to look at. -/
def pollFrom (p : α → Bool) (answers : Nat → α) : Nat → Nat → Option Nat
  | 0, _ => none
  | fuel + 1, i => if p (answers i) then some i else pollFrom p answers fuel (i + 1)

theorem firstFrom_of_pollFrom (h : pollFrom p answers fuel i = some j) :
    FirstFrom p answers i j ∧ j < i + fuel := by
  induction fuel generalizing i with
  | zero => cases h
  | succ fuel ih =>
    rw [pollFrom] at h
    split_ifs at h with hMeets
    · cases h
      exact ⟨.here hMeets, Nat.lt_add_of_pos_right (Nat.succ_pos fuel)⟩
    · obtain ⟨hFirst, hLt⟩ := ih h
      exact ⟨.later (by simpa using hMeets) hFirst, by omega⟩

theorem pollFrom_of_firstFrom (h : FirstFrom p answers i j) (hFuel : j < i + fuel) :
    pollFrom p answers fuel i = some j := by
  induction fuel generalizing i with
  | zero => exact absurd h.le (by omega)
  | succ fuel ih =>
    rw [pollFrom]
    rcases Nat.eq_or_lt_of_le h.le with rfl | hAfter
    · exact if_pos h.meets
    · rw [if_neg (by simp [h.before i (Nat.le_refl i) hAfter])]
      exact ih ⟨hAfter, h.meets, fun k hLe => h.before k (Nat.le_of_succ_le hLe)⟩ (by omega)

end Machine
