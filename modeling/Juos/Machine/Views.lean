import Mathlib.Logic.Function.Basic

/-!
# Views of one memory

Several views of the cells of one memory: `look i a` is the cell that the view `i` has at the
address `a`, if it has one there. A place of a view is `Private` when no other place, of this or of
another view, leads to its cell. `Private.read_write` is what that is good for: whatever is written
at another place, a private place keeps its contents.
-/

namespace Machine

universe u v w x

variable {ι : Type u} {α : Type v} {κ : Type w} {β : Type x}

def readThrough (look : ι → α → Option κ) (i : ι) (a : α) (m : κ → β) : Option β :=
  (look i a).map m

/-- A write where there is no cell does nothing. -/
def writeThrough [DecidableEq κ] (look : ι → α → Option κ) (i : ι) (a : α) (x : β) (m : κ → β) :
    κ → β :=
  match look i a with
  | some k => Function.update m k x
  | none => m

def Private (look : ι → α → Option κ) (i : ι) (a : α) : Prop :=
  ∀ k, look i a = some k → ∀ j b, look j b = some k → j = i ∧ b = a

variable {look : ι → α → Option κ} {i j : ι} {a b : α} {m : κ → β}

theorem Private.read_write [DecidableEq κ] (h : Private look i a) (hOther : ¬ (j = i ∧ b = a))
    (x : β) : readThrough look i a (writeThrough look j b x m) = readThrough look i a m := by
  cases hCell : look i a with
  | none => simp [readThrough, hCell]
  | some k =>
    cases hWritten : look j b with
    | none => simp [writeThrough, hWritten]
    | some l =>
      have hne : k ≠ l := by
        rintro rfl
        exact hOther (h k hCell j b hWritten)
      simp [readThrough, writeThrough, hCell, hWritten, Function.update_of_ne hne]

end Machine
