import Mathlib.Data.List.Perm.Subperm
import Mathlib.Logic.Function.Basic
import Mathlib.Tactic.Common

/-!
# First-fit allocation of slots

A table of `length` slots, each taken or free. `firstFree` finds the free slot with the smallest
index and `freeCount` counts the free slots, so that a sequence of allocations can be followed by
one number: taking a free slot lowers it by one, and the search fails exactly when it is zero.
-/

namespace Machine

variable {taken : Nat → Bool} {length i n : Nat}

def firstFree (taken : Nat → Bool) (length : Nat) : Option Nat :=
  (List.range length).find? fun i => !taken i

def freeCount (taken : Nat → Bool) (length : Nat) : Nat :=
  (List.range length).countP fun i => !taken i

theorem firstFree_spec (h : firstFree taken length = some i) :
    i < length ∧ taken i = false ∧ ∀ j < i, taken j = true := by
  obtain ⟨hFree, hLt, hBelow⟩ := List.find?_range_eq_some.mp h
  exact ⟨List.mem_range.mp hLt, by simpa using hFree, fun j hj => by simpa using hBelow j hj⟩

theorem firstFree_isSome (h : 0 < freeCount taken length) :
    ∃ i, firstFree taken length = some i := by
  obtain ⟨i, hi, hFree⟩ := List.countP_pos_iff.mp h
  exact Option.isSome_iff_exists.mp (List.find?_isSome.mpr ⟨i, hi, hFree⟩)

theorem freeCount_le : freeCount taken length ≤ length := by
  simpa [freeCount] using (List.countP_le_length (l := List.range length) (p := fun i => !taken i))

theorem freeCount_mono {m : Nat} (h : m ≤ n) : freeCount taken m ≤ freeCount taken n :=
  List.Sublist.countP_le (List.range_sublist.mpr h)

/-- Some slot below `n` is free, so the first free one lies below `n`. -/
theorem firstFree_lt (h : firstFree taken length = some i) (hn : 0 < freeCount taken n) :
    i < n := by
  obtain ⟨-, -, hBelow⟩ := firstFree_spec h
  obtain ⟨j, hj, hFree⟩ := List.countP_pos_iff.mp hn
  by_contra hLe
  have hTaken := hBelow j (by have := List.mem_range.mp hj; omega)
  simp [hTaken] at hFree

theorem freeCount_update (hi : i < n) (hFree : taken i = false) :
    freeCount (Function.update taken i true) n + 1 = freeCount taken n := by
  unfold freeCount
  induction n with
  | zero => omega
  | succ n ih =>
    rw [List.range_succ, List.countP_append, List.countP_append]
    by_cases hin : i = n
    · subst hin
      have hSame : (List.range i).countP (fun j => !Function.update taken i true j) =
          (List.range i).countP fun j => !taken j := by
        apply List.countP_congr
        intro j hj
        have := List.mem_range.mp hj
        rw [Function.update_of_ne (by omega)]
      rw [hSame]
      simp [hFree]
    · have hRest := ih (by omega)
      rw [← hRest]
      simp [Function.update_of_ne (Ne.symm hin)]
      omega

/-- Distinct free slots below `n` are no more than there are free slots. -/
theorem length_le_freeCount {slots : List Nat} (hNodup : slots.Nodup)
    (hFree : ∀ i ∈ slots, i < n ∧ taken i = false) : slots.length ≤ freeCount taken n := by
  unfold freeCount
  rw [List.countP_eq_length_filter]
  refine (List.Nodup.subperm hNodup fun i hi => ?_).length_le
  obtain ⟨hLt, hNot⟩ := hFree i hi
  exact List.mem_filter.mpr ⟨List.mem_range.mpr hLt, by simp [hNot]⟩

end Machine
