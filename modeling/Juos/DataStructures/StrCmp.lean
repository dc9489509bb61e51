import Juos.DataStructures.String
import Juos.Machine.CString
import Mathlib.Data.List.Lex

/-!
# Comparing texts

`strcmp` walks two texts side by side and tests the byte of the first one only for NUL; where the
second text ends first, the NUL there differs from a character. What it returns is the `difference`
of the two texts (`strcmp_eq`), which is a function on lists of bytes: the difference of the bytes
where the texts part, as unsigned numbers, a text that ends having a NUL there. The lexicographic
order is its sign, and `String::compare` is equality (`strcmp_lexicographic`).
-/

namespace Juos.DataStructures

open Machine

/-! ## The function -/

/-- What is returned, and the addresses that are read from the two texts. -/
def strcmp (m : Memory) : Nat → Nat → Nat → Option (Int × List (Nat × Nat))
  | 0, _, _ => none
  | fuel + 1, s1, s2 =>
    let c1 := load8 m s1
    let c2 := load8 m s2
    if c1 = 0 then some (c1 - c2, [(s1, s2)])
    else if c1 = c2 then
      (strcmp m fuel (s1 + 1) (s2 + 1)).map fun r => (r.1, (s1, s2) :: r.2)
    else some (c1 - c2, [(s1, s2)])

/-- `String::compare` -/
def String.compare (fuel : Nat) (m : Memory) (s string : String) : Option Bool :=
  (strcmp m fuel s.data string.data).map fun r => r.1 == 0

/-! ## The difference of two texts -/

section Difference

variable {ts tt tu : List UInt8}

/-- The byte at a place of a text or right behind it. -/
def byteAt (text : List UInt8) (i : Nat) : Int := ((text.getD i 0).toNat : Nat)

def difference : List UInt8 → List UInt8 → Int
  | [], tt => 0 - byteAt tt 0
  | c :: _, [] => c.toNat
  | c :: cs, d :: ds => if c = d then difference cs ds else c.toNat - d.toNat

theorem difference_swap (ts tt : List UInt8) : difference tt ts = -difference ts tt := by
  induction ts generalizing tt with
  | nil =>
    cases tt with
    | nil => rfl
    | cons d ds => simp [difference, byteAt]
  | cons c cs ih =>
    cases tt with
    | nil => simp [difference, byteAt]
    | cons d ds =>
      rw [difference, difference]
      by_cases hcd : c = d
      · rw [if_pos hcd, if_pos hcd.symm, ih]
      · rw [if_neg hcd, if_neg (Ne.symm hcd), Int.neg_sub]

theorem byteAt_succ (c : UInt8) (text : List UInt8) (i : Nat) :
    byteAt (c :: text) (i + 1) = byteAt text i := rfl

theorem byteAt_zero_ne {c : UInt8} (text : List UInt8) (hc : c ≠ 0) :
    byteAt (c :: text) 0 ≠ byteAt [] 0 := fun hEq =>
  hc (UInt8.toNat_inj.mp (Int.ofNat.inj hEq))

/-- Where two texts part, their bytes give the difference. -/
theorem difference_spec (hs : ∀ c ∈ ts, c ≠ 0) (ht : ∀ c ∈ tt, c ≠ 0) (hne : ts ≠ tt) :
    ∃ i ≤ ts.length, i ≤ tt.length ∧ (∀ j < i, byteAt ts j = byteAt tt j) ∧
      byteAt ts i ≠ byteAt tt i ∧ difference ts tt = byteAt ts i - byteAt tt i := by
  induction ts generalizing tt with
  | nil =>
    cases tt with
    | nil => exact absurd rfl hne
    | cons d ds =>
      have hd := byteAt_zero_ne ds (ht d List.mem_cons_self)
      exact ⟨0, Nat.le_refl 0, Nat.zero_le _, nofun, hd.symm, rfl⟩
  | cons c cs ih =>
    cases tt with
    | nil =>
      have hc := byteAt_zero_ne cs (hs c List.mem_cons_self)
      exact ⟨0, Nat.zero_le _, Nat.le_refl 0, nofun, hc, (Int.sub_zero _).symm⟩
    | cons d ds =>
      by_cases hcd : c = d
      · subst hcd
        obtain ⟨i, hi, hi', hBefore, hDiffer, hEq⟩ := ih
          (fun c hc => hs c (List.mem_cons_of_mem _ hc))
          (fun c hc => ht c (List.mem_cons_of_mem _ hc)) fun hEq => hne (hEq ▸ rfl)
        refine ⟨i + 1, Nat.succ_le_succ hi, Nat.succ_le_succ hi', fun j hj => ?_, hDiffer, ?_⟩
        · cases j with
          | zero => rfl
          | succ j => exact hBefore j (Nat.lt_of_succ_lt_succ hj)
        · rw [difference, if_pos rfl, hEq, byteAt_succ, byteAt_succ]
      · have hDiffer : byteAt (c :: cs) 0 ≠ byteAt (d :: ds) 0 := fun hEq =>
          hcd (UInt8.toNat_inj.mp (Int.ofNat.inj hEq))
        exact ⟨0, Nat.zero_le _, Nat.zero_le _, nofun, hDiffer, if_neg hcd⟩

theorem difference_eq_zero_iff (hs : ∀ c ∈ ts, c ≠ 0) (ht : ∀ c ∈ tt, c ≠ 0) :
    difference ts tt = 0 ↔ ts = tt := by
  constructor
  · intro hZero
    by_contra hne
    obtain ⟨i, -, -, -, hDiffer, hEq⟩ := difference_spec hs ht hne
    exact hDiffer (Int.sub_eq_zero.mp (hEq.symm.trans hZero))
  · rintro rfl
    have hSwap := difference_swap ts ts
    omega

/-- The order of the texts as lists of unsigned numbers. -/
theorem difference_neg_iff (ht : ∀ c ∈ tt, c ≠ 0) :
    difference ts tt < 0 ↔ ts.map UInt8.toNat < tt.map UInt8.toNat := by
  induction ts generalizing tt with
  | nil =>
    cases tt with
    | nil => simp [difference, byteAt]
    | cons d ds =>
      have hd : 0 < d.toNat := Nat.pos_of_ne_zero fun hZero =>
        ht d List.mem_cons_self (UInt8.toNat_inj.mp hZero)
      simp [difference, byteAt, hd]
  | cons c cs ih =>
    cases tt with
    | nil => simp [difference]
    | cons d ds =>
      rw [difference, List.map_cons, List.map_cons, List.cons_lt_cons_iff]
      by_cases hcd : c = d
      · subst hcd
        rw [if_pos rfl, ih fun c hc => ht c (List.mem_cons_of_mem _ hc)]
        simp
      · have hNe : c.toNat ≠ d.toNat := fun hEq => hcd (UInt8.toNat_inj.mp hEq)
        rw [if_neg hcd, or_iff_left fun hBoth => hNe hBoth.1]
        omega

theorem difference_nonpos_iff (hs : ∀ c ∈ ts, c ≠ 0) :
    difference ts tt ≤ 0 ↔ ts.map UInt8.toNat ≤ tt.map UInt8.toNat := by
  have hGreater : difference tt ts < 0 ↔ tt.map UInt8.toNat < ts.map UInt8.toNat :=
    difference_neg_iff hs
  rw [difference_swap ts tt] at hGreater
  rw [← not_lt (b := ts.map UInt8.toNat), ← hGreater]
  omega

theorem difference_le_trans (hs : ∀ c ∈ ts, c ≠ 0) (ht : ∀ c ∈ tt, c ≠ 0)
    (hFirst : difference ts tt ≤ 0) (hSecond : difference tt tu ≤ 0) : difference ts tu ≤ 0 := by
  rw [difference_nonpos_iff hs] at hFirst ⊢
  rw [difference_nonpos_iff ht] at hSecond
  exact hFirst.trans hSecond

theorem difference_lt_trans (ht : ∀ c ∈ tt, c ≠ 0) (hu : ∀ c ∈ tu, c ≠ 0)
    (hFirst : difference ts tt < 0) (hSecond : difference tt tu < 0) : difference ts tu < 0 := by
  rw [difference_neg_iff ht] at hFirst
  rw [difference_neg_iff hu] at hSecond ⊢
  exact hFirst.trans hSecond

end Difference

/-! ## What `strcmp` returns -/

variable {m : Memory} {p q r : Nat} {tp tq tr : List UInt8} {fuel : Nat}

theorem textAt_cons {c : UInt8} {text : List UInt8} (h : TextAt m p (c :: text)) :
    load8 m p = c.toNat ∧ c ≠ 0 ∧ TextAt m (p + 1) text := by
  obtain ⟨hChars, hEnd⟩ := textAt_iff.mp h
  have hFirst := hChars 0 (Nat.zero_lt_succ _)
  refine ⟨hFirst.1, hFirst.2, textAt_iff.mpr ⟨fun k hk => ?_, ?_⟩⟩
  · rw [Nat.add_right_comm]
    exact hChars (k + 1) (Nat.succ_lt_succ hk)
  · rw [Nat.add_right_comm]
    exact hEnd

/-- The first `n` bytes of both texts. -/
def firstBytes (p q n : Nat) : List (Nat × Nat) := (List.range n).map fun i => (p + i, q + i)

theorem firstBytes_succ (p q n : Nat) :
    firstBytes p q (n + 1) = (p, q) :: firstBytes (p + 1) (q + 1) n := by
  rw [firstBytes, List.range_succ_eq_map, List.map_cons, List.map_map, firstBytes]
  congr 1
  refine List.map_congr_left fun i _ => ?_
  rw [Function.comp_apply, Nat.succ_eq_add_one, Nat.add_right_comm, Nat.add_right_comm q,
    Nat.add_assoc, Nat.add_assoc q]

theorem load8_first (h : TextAt m p tp) : (load8 m p : Int) = byteAt tp 0 := by
  cases tp with
  | nil => exact congrArg Nat.cast h.end_eq
  | cons c text => exact congrArg Nat.cast (textAt_cons h).1

/-- With enough fuel `strcmp` returns `x`, and every byte that it reads belongs to the texts or is
the NUL behind one of them. -/
def Returns (m : Memory) (p q : Nat) (tp tq : List UInt8) (x : Int) : Prop :=
  ∃ k ≤ tp.length, k ≤ tq.length ∧ ∀ fuel, tp.length < fuel →
    strcmp m fuel p q = some (x, firstBytes p q (k + 1))

theorem returns_difference (hp : TextAt m p tp) (hq : TextAt m q tq) :
    Returns m p q tp tq (difference tp tq) := by
  induction tp generalizing tq p q with
  | nil =>
    have hNul : load8 m p = 0 := hp.end_eq
    refine ⟨0, Nat.le_refl 0, Nat.zero_le _, fun fuel hFuel => ?_⟩
    obtain ⟨fuel, rfl⟩ := Nat.exists_eq_succ_of_ne_zero (Nat.ne_zero_of_lt hFuel)
    rw [strcmp, if_pos hNul, load8_first hq, hNul]
    rfl
  | cons c cs ih =>
    obtain ⟨hc, hNonzero, hcs⟩ := textAt_cons hp
    have hcNat : c.toNat ≠ 0 := fun hZero => hNonzero (UInt8.toNat_inj.mp hZero)
    cases tq with
    | nil =>
      -- the other text ends first
      have hNul : load8 m q = 0 := hq.end_eq
      refine ⟨0, Nat.zero_le _, Nat.le_refl 0, fun fuel hFuel => ?_⟩
      obtain ⟨fuel, rfl⟩ := Nat.exists_eq_succ_of_ne_zero (Nat.ne_zero_of_lt hFuel)
      rw [strcmp, hc, if_neg hcNat, hNul, if_neg hcNat]
      exact congrArg some (Prod.ext (Int.sub_zero _) rfl)
    | cons d ds =>
      obtain ⟨hd, -, hds⟩ := textAt_cons hq
      rw [difference]
      by_cases hcd : c = d
      · subst hcd
        obtain ⟨k, hk, hk', hRest⟩ := ih hcs hds
        refine ⟨k + 1, Nat.succ_le_succ hk, Nat.succ_le_succ hk', fun fuel hFuel => ?_⟩
        obtain ⟨fuel, rfl⟩ := Nat.exists_eq_succ_of_ne_zero (Nat.ne_zero_of_lt hFuel)
        rw [strcmp, hc, if_neg hcNat, hd, if_pos rfl, if_pos rfl,
          hRest fuel (Nat.lt_of_succ_lt_succ hFuel), firstBytes_succ p q]
        rfl
      · refine ⟨0, Nat.zero_le _, Nat.zero_le _, fun fuel hFuel => ?_⟩
        obtain ⟨fuel, rfl⟩ := Nat.exists_eq_succ_of_ne_zero (Nat.ne_zero_of_lt hFuel)
        rw [strcmp, hc, if_neg hcNat, hd, if_neg fun hEq => hcd (UInt8.toNat_inj.mp hEq),
          if_neg hcd]
        rfl

theorem compare_eq {s t : String} (hs : TextAt m s.data tp) (ht : TextAt m t.data tq)
    (hFuel : tp.length < fuel) : s.compare fuel m t = some (decide (tp = tq)) := by
  obtain ⟨k, -, -, hReturns⟩ := returns_difference hs ht
  rw [String.compare, hReturns fuel hFuel, Option.map_some, Option.some.injEq, Bool.eq_iff_iff,
    beq_iff_eq, decide_eq_true_iff]
  exact difference_eq_zero_iff hs.nonzero ht.nonzero

/-- `strcmp` is the lexicographic order of unsigned bytes on the texts of any three places. -/
theorem strcmp_lexicographic (hp : TextAt m p tp) (hq : TextAt m q tq) (hr : TextAt m r tr) :
    ∃ pq qp qr pr : Int, Returns m p q tp tq pq ∧ Returns m q p tq tp qp ∧
      Returns m q r tq tr qr ∧ Returns m p r tp tr pr ∧
      (pq = 0 ↔ tp = tq) ∧
      (∀ s t : String, s.data = p → t.data = q → ∀ fuel, tp.length < fuel →
        s.compare fuel m t = some (decide (tp = tq))) ∧
      (tp ≠ tq → ∃ i ≤ tp.length, i ≤ tq.length ∧ (∀ j < i, byteAt tp j = byteAt tq j) ∧
        byteAt tp i ≠ byteAt tq i ∧ pq = byteAt tp i - byteAt tq i) ∧
      (pq < 0 ↔ tp.map UInt8.toNat < tq.map UInt8.toNat) ∧
      qp = -pq ∧ (pq ≤ 0 → qr ≤ 0 → pr ≤ 0) ∧ (pq < 0 → qr < 0 → pr < 0) := by
  refine ⟨difference tp tq, difference tq tp, difference tq tr, difference tp tr,
    returns_difference hp hq, returns_difference hq hp, returns_difference hq hr,
    returns_difference hp hr, difference_eq_zero_iff hp.nonzero hq.nonzero, ?_,
    difference_spec hp.nonzero hq.nonzero, difference_neg_iff hq.nonzero, difference_swap tp tq,
    difference_le_trans hp.nonzero hq.nonzero, difference_lt_trans hq.nonzero hr.nonzero⟩
  rintro s t rfl rfl fuel hFuel
  exact compare_eq hp hq hFuel

/-- A text, the same with a byte above 127 behind it, and a greater one. -/
theorem strcmp_lexicographic_three :
    ∃ m x, Returns m 0 2 [97] [97, 200] x ∧ x < 0 := by
  let m : Memory := fun a => ([97, 0, 97, 200, 0, 98, 0] : List UInt8).getD a 0
  have hp : TextAt m 0 [97] := textAt_iff.mpr (by decide)
  have hq : TextAt m 2 [97, 200] := textAt_iff.mpr (by decide)
  have hr : TextAt m 5 [98] := textAt_iff.mpr (by decide)
  obtain ⟨x, -, -, -, hReturns, -, -, -, -, -, -, hLess, -⟩ := strcmp_lexicographic hp hq hr
  exact ⟨m, x, hReturns, hLess.mpr (by decide)⟩

end Juos.DataStructures
