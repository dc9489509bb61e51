import Mathlib.Data.Nat.Basic
import Mathlib.Tactic.Common

/-!
# Byte memory with 32-bit addresses

A memory gives every address of a 32-bit space one byte. Words are stored with the least
significant byte first. Every access reduces its address modulo `2 ^ 32`, so a word at the top
of the space continues at address `0`.

* `load32_store32`: a word reads back what was stored.
* `Apart`: two ranges share no address, wrapping included; `apart_of_le` and `apart_of_ge` give
  it for ranges that do not wrap.
* `SameOn`: two memories agree on a range. Each store has a lemma saying that it keeps every
  range apart from the one it writes, and each load only depends on the range it reads.
-/

namespace Machine

/-- The contents of a 32-bit address space. Only indices below `2 ^ 32` are ever used. -/
abbrev Memory := Nat → UInt8

def load8 (m : Memory) (a : Nat) : Nat := (m (a % 4294967296)).toNat

def store8 (m : Memory) (a v : Nat) : Memory :=
  fun x => if x = a % 4294967296 then UInt8.ofNat v else m x

def load32 (m : Memory) (a : Nat) : Nat :=
  load8 m a + 256 * load8 m (a + 1) + 65536 * load8 m (a + 2) + 16777216 * load8 m (a + 3)

def store32 (m : Memory) (a v : Nat) : Memory :=
  store8 (store8 (store8 (store8 m a v) (a + 1) (v / 256)) (a + 2) (v / 65536)) (a + 3)
    (v / 16777216)

/-- `memset`: the loop that stores the byte `v` at `a`, `a + 1`, ... -/
def fill (m : Memory) (a v : Nat) : Nat → Memory
  | 0 => m
  | n + 1 => store8 (fill m a v n) (a + n) v

/-! ## Bytes -/

theorem load8_lt (m : Memory) (a : Nat) : load8 m a < 256 := UInt8.toNat_lt _

theorem load8_store8 (m : Memory) (a v : Nat) : load8 (store8 m a v) a = v % 256 := by
  simp [load8, store8]

theorem load8_store8_of_ne (m : Memory) {a b : Nat} (v : Nat)
    (hne : b % 4294967296 ≠ a % 4294967296) : load8 (store8 m a v) b = load8 m b := by
  simp [load8, store8, hne]

/-! ## Ranges -/

/-- The `n` bytes from `a` and the `k` bytes from `b` share no address. -/
def Apart (a n b k : Nat) : Prop :=
  ∀ i < n, ∀ j < k, (a + i) % 4294967296 ≠ (b + j) % 4294967296

instance (a n b k : Nat) : Decidable (Apart a n b k) :=
  inferInstanceAs (Decidable (∀ i < n, ∀ j < k, (a + i) % 4294967296 ≠ (b + j) % 4294967296))

theorem apart_of_le {a n b k : Nat} (hab : a + n ≤ b) (hb : b + k ≤ 4294967296) :
    Apart a n b k := by
  intro i hi j hj
  omega

theorem Apart.symm {a n b k : Nat} (h : Apart a n b k) : Apart b k a n :=
  fun i hi j hj => (h j hj i hi).symm

theorem apart_of_ge {a n b k : Nat} (hba : b + k ≤ a) (ha : a + n ≤ 4294967296) :
    Apart a n b k :=
  (apart_of_le hba ha).symm

/-- A part of the first range is apart from a part of the second. -/
theorem Apart.sub {a n b k a' n' b' k' : Nat} (h : Apart a n b k)
    (ha : a ≤ a' ∧ a' + n' ≤ a + n) (hb : b ≤ b' ∧ b' + k' ≤ b + k) : Apart a' n' b' k' := by
  intro i hi j hj
  have := h (a' - a + i) (by omega) (b' - b + j) (by omega)
  rwa [show a + (a' - a + i) = a' + i by omega, show b + (b' - b + j) = b' + j by omega] at this

/-- `m'` holds the same `n` bytes from `a` as `m`. -/
def SameOn (m m' : Memory) (a n : Nat) : Prop := ∀ i < n, load8 m' (a + i) = load8 m (a + i)

theorem SameOn.refl (m : Memory) (a n : Nat) : SameOn m m a n := fun _ _ => rfl

theorem SameOn.trans {m₁ m₂ m₃ : Memory} {a n : Nat} (h₁ : SameOn m₁ m₂ a n)
    (h₂ : SameOn m₂ m₃ a n) : SameOn m₁ m₃ a n :=
  fun i hi => (h₂ i hi).trans (h₁ i hi)

theorem SameOn.sub {m m' : Memory} {a n b k : Nat} (h : SameOn m m' a n)
    (hb : a ≤ b ∧ b + k ≤ a + n) : SameOn m m' b k := by
  intro i hi
  have := h (b - a + i) (by omega)
  rwa [show a + (b - a + i) = b + i by omega] at this

theorem sameOn_store8 (m : Memory) {a b n : Nat} (v : Nat) (hApart : Apart a 1 b n) :
    SameOn m (store8 m a v) b n :=
  fun j hj => load8_store8_of_ne m v (hApart 0 (by omega) j hj).symm

theorem sameOn_store32 (m : Memory) {a b n : Nat} (v : Nat) (hApart : Apart a 4 b n) :
    SameOn m (store32 m a v) b n := by
  have hByte : ∀ k < 4, Apart (a + k) 1 b n := fun k hk =>
    hApart.sub (by omega) (by omega)
  have h₀ : SameOn m (store8 m a v) b n := sameOn_store8 m v (hByte 0 (by omega))
  have h₁ := h₀.trans (sameOn_store8 _ (v / 256) (hByte 1 (by omega)))
  have h₂ := h₁.trans (sameOn_store8 _ (v / 65536) (hByte 2 (by omega)))
  exact h₂.trans (sameOn_store8 _ (v / 16777216) (hByte 3 (by omega)))

theorem sameOn_fill (m : Memory) {a b n k : Nat} (v : Nat) (hApart : Apart a k b n) :
    SameOn m (fill m a v k) b n := by
  induction k with
  | zero => exact .refl _ _ _
  | succ k ih =>
    have hBefore : Apart a k b n := hApart.sub (by omega) (by omega)
    exact (ih hBefore).trans (sameOn_store8 _ v (hApart.sub (by omega) (by omega)))

/-! ## Words -/

theorem load32_lt (m : Memory) (a : Nat) : load32 m a < 4294967296 := by
  have h₀ := load8_lt m a
  have h₁ := load8_lt m (a + 1)
  have h₂ := load8_lt m (a + 2)
  have h₃ := load8_lt m (a + 3)
  unfold load32
  omega

theorem load8_congr {m m' : Memory} {a : Nat} (h : SameOn m m' a 1) : load8 m' a = load8 m a :=
  h 0 (by omega)

theorem load32_congr {m m' : Memory} {a : Nat} (h : SameOn m m' a 4) :
    load32 m' a = load32 m a := by
  have h₀ := h 0 (by omega)
  have h₁ := h 1 (by omega)
  have h₂ := h 2 (by omega)
  have h₃ := h 3 (by omega)
  simp only [Nat.add_zero] at h₀
  simp only [load32, h₀, h₁, h₂, h₃]

theorem load32_store32 (m : Memory) (a v : Nat) :
    load32 (store32 m a v) a = v % 4294967296 := by
  have h₀ : load8 (store32 m a v) a = v % 256 := by
    unfold store32
    rw [load8_store8_of_ne _ _ (by omega), load8_store8_of_ne _ _ (by omega),
      load8_store8_of_ne _ _ (by omega), load8_store8]
  have h₁ : load8 (store32 m a v) (a + 1) = v / 256 % 256 := by
    unfold store32
    rw [load8_store8_of_ne _ _ (by omega), load8_store8_of_ne _ _ (by omega), load8_store8]
  have h₂ : load8 (store32 m a v) (a + 2) = v / 65536 % 256 := by
    unfold store32
    rw [load8_store8_of_ne _ _ (by omega), load8_store8]
  have h₃ : load8 (store32 m a v) (a + 3) = v / 16777216 % 256 := by
    unfold store32
    rw [load8_store8]
  simp only [load32, h₀, h₁, h₂, h₃]
  omega

theorem load32_store32_of_lt (m : Memory) {a v : Nat} (hv : v < 4294967296) :
    load32 (store32 m a v) a = v := by
  rw [load32_store32, Nat.mod_eq_of_lt hv]

theorem load32_store32_of_apart (m : Memory) {a b : Nat} (v : Nat) (hApart : Apart a 4 b 4) :
    load32 (store32 m a v) b = load32 m b :=
  load32_congr (sameOn_store32 m v hApart)

theorem load8_store32_of_apart (m : Memory) {a b : Nat} (v : Nat) (hApart : Apart a 4 b 1) :
    load8 (store32 m a v) b = load8 m b :=
  load8_congr (sameOn_store32 m v hApart)

theorem load32_store8_of_apart (m : Memory) {a b : Nat} (v : Nat) (hApart : Apart a 1 b 4) :
    load32 (store8 m a v) b = load32 m b :=
  load32_congr (sameOn_store8 m v hApart)

/-! ## Filling a range -/

theorem load8_fill (m : Memory) (a v : Nat) {n i : Nat} (hi : i < n) (hn : n ≤ 4294967296) :
    load8 (fill m a v n) (a + i) = v % 256 := by
  induction n with
  | zero => omega
  | succ n ih =>
    by_cases hLast : i = n
    · subst hLast
      exact load8_store8 _ _ _
    · exact (load8_store8_of_ne _ _ (by omega)).trans (ih (by omega) (by omega))

theorem load32_fill_zero (m : Memory) (a : Nat) {n i : Nat} (hi : i + 4 ≤ n)
    (hn : n ≤ 4294967296) : load32 (fill m a 0 n) (a + i) = 0 := by
  have h : ∀ k < 4, load8 (fill m a 0 n) (a + i + k) = 0 := by
    intro k hk
    rw [Nat.add_assoc]
    exact load8_fill m a 0 (by omega) hn
  have h₀ := h 0 (by omega)
  have h₁ := h 1 (by omega)
  have h₂ := h 2 (by omega)
  have h₃ := h 3 (by omega)
  simp only [Nat.add_zero] at h₀
  simp only [load32, h₀, h₁, h₂, h₃]

end Machine
