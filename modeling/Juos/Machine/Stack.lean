import Juos.Machine.Memory

/-!
# A stack of words in memory

A 32-bit stack pointer that is decreased by four before a word is stored at it. `Stacked m sp ws`
says that the words from `sp` upwards are `ws`; `stacked_push` puts a word on it, `stacked_word`
reads one of it, and `stacked_congr` says which bytes it depends on. The pointer may wrap, as long
as the stack does not reach around the whole address space.
-/

namespace Machine

variable {m m' : Memory} {sp : BitVec 32} {ws xs : List (BitVec 32)}

def Stacked (m : Memory) (sp : BitVec 32) (ws : List (BitVec 32)) : Prop :=
  ∀ i (hi : i < ws.length), load32 m (sp.toNat + 4 * i) = (ws.get ⟨i, hi⟩).toNat

/-- The word at an address. -/
def wordAt (m : Memory) (a : BitVec 32) : BitVec 32 := BitVec.ofNat 32 (load32 m a.toNat)

def pushWord (m : Memory) (sp x : BitVec 32) : Memory := store32 m (sp - 4).toNat x.toNat

/-- Push words, the first one first. -/
def pushWords (m : Memory) (sp : BitVec 32) : List (BitVec 32) → Memory
  | [] => m
  | x :: xs => pushWords (pushWord m sp x) (sp - 4) xs

theorem load32_mod (m : Memory) {a b : Nat} (h : a % 4294967296 = b % 4294967296) :
    load32 m a = load32 m b := by
  have hByte : ∀ k, load8 m (a + k) = load8 m (b + k) := fun k => by
    rw [load8, load8, show (a + k) % 4294967296 = (b + k) % 4294967296 by omega]
  have h₀ := hByte 0
  simp only [Nat.add_zero] at h₀
  simp only [load32, h₀, hByte]

theorem stacked_nil (m : Memory) (sp : BitVec 32) : Stacked m sp [] := fun _ hi => nomatch hi

theorem stacked_push (h : Stacked m sp ws) (hLength : ws.length < 1073741823) (x : BitVec 32) :
    Stacked (pushWord m sp x) (sp - 4) (x :: ws) := by
  have hSub : (sp - 4).toNat = (4294967292 + sp.toNat) % 4294967296 := BitVec.toNat_sub ..
  have hx := x.isLt
  intro i hi
  cases i with
  | zero =>
    rw [pushWord, Nat.mul_zero, Nat.add_zero, load32_store32_of_lt _ hx]
    rfl
  | succ i =>
    rw [List.length_cons] at hi
    have hApart : Apart (sp - 4).toNat 4 ((sp - 4).toNat + 4 * (i + 1)) 4 := by
      intro j hj k hk
      omega
    rw [pushWord, load32_store32_of_apart _ _ hApart]
    exact (load32_mod m (by omega)).trans (h i (by omega))

theorem stacked_word {i : Nat} (h : Stacked m sp ws) (hi : i < ws.length) :
    wordAt m (sp + BitVec.ofNat 32 (4 * i)) = ws.get ⟨i, hi⟩ := by
  have hAdd : (sp + BitVec.ofNat 32 (4 * i)).toNat % 4294967296 =
      (sp.toNat + 4 * i) % 4294967296 := by
    rw [BitVec.toNat_add, BitVec.toNat_ofNat]
    omega
  rw [wordAt, load32_mod m hAdd, h i hi]
  exact BitVec.ofNat_toNat ..

theorem stacked_congr (h : Stacked m sp ws) (hSame : SameOn m m' sp.toNat (4 * ws.length)) :
    Stacked m' sp ws := by
  intro i hi
  rw [load32_congr (hSame.sub (by omega))]
  exact h i hi

theorem stacked_words (h : Stacked m sp ws) (hLength : ws.length + xs.length < 1073741823) :
    Stacked (pushWords m sp xs) (sp - BitVec.ofNat 32 (4 * xs.length)) (xs.reverse ++ ws) := by
  induction xs generalizing m sp ws with
  | nil => simpa [pushWords] using h
  | cons x xs ih =>
    rw [List.length_cons] at hLength
    have hPush := ih (stacked_push h (by omega) x) (by rw [List.length_cons]; omega)
    have hSp : sp - 4 - BitVec.ofNat 32 (4 * xs.length) =
        sp - BitVec.ofNat 32 (4 * (x :: xs).length) := by
      rw [List.length_cons, Nat.mul_succ, Nat.add_comm, BitVec.ofNat_add, BitVec.sub_sub]
      rfl
    rw [pushWords, List.reverse_cons, List.append_assoc, ← hSp]
    exact hPush

end Machine
