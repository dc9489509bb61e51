import Mathlib.Data.List.Nodup
import Mathlib.Tactic.Common

/-!
# Nodes linked both ways

`Path link a ps` says that following `link` from `a` visits the nodes `ps` and ends with null, which
is `0`. A list is `DoublyLinked` if its forward links follow the nodes from the head and its back
links follow them in the opposite order from the tail. One lemma about paths, `Path.insert`, puts a
node in for both directions (`DoublyLinked.insert`).
-/

namespace Machine

def Path (link : Nat → Nat) : Nat → List Nat → Prop
  | a, [] => a = 0
  | a, p :: ps => a = p ∧ p ≠ 0 ∧ Path link (link p) ps

/-- Following the links; `none` when the fuel runs out. -/
def walk (link : Nat → Nat) : Nat → Nat → Option (List Nat)
  | 0, _ => none
  | fuel + 1, a => if a = 0 then some [] else (walk link fuel (link a)).map (a :: ·)

variable {link link' next prev next' prev' : Nat → Nat} {ps qs pre post : List Nat}
  {a n c q r head tail fuel : Nat}

namespace Path

theorem walk_eq (h : Path link a ps) (hFuel : ps.length < fuel) : walk link fuel a = some ps := by
  induction ps generalizing a fuel with
  | nil =>
    obtain ⟨fuel, rfl⟩ := Nat.exists_eq_add_of_lt hFuel
    exact if_pos h
  | cons p ps ih =>
    obtain ⟨rfl, hne, hRest⟩ := h
    obtain ⟨fuel, rfl⟩ := Nat.exists_eq_succ_of_ne_zero (Nat.ne_zero_of_lt hFuel)
    rw [walk, if_neg hne, ih hRest (Nat.lt_of_succ_lt_succ hFuel), Option.map_some]

theorem eq_of_walk (h : Path link a ps) (hWalk : walk link fuel a = some qs) : qs = ps := by
  induction ps generalizing a fuel qs with
  | nil =>
    cases fuel with
    | zero => cases hWalk
    | succ fuel =>
      rw [walk, if_pos (show a = 0 from h)] at hWalk
      exact (Option.some.inj hWalk).symm
  | cons p ps ih =>
    obtain ⟨rfl, hne, hRest⟩ := h
    cases fuel with
    | zero => cases hWalk
    | succ fuel =>
      rw [walk, if_neg hne] at hWalk
      obtain ⟨rest, hLater, rfl⟩ := Option.map_eq_some_iff.mp hWalk
      rw [ih hRest hLater]

theorem start_eq (h : Path link a ps) : a = ps.headD 0 := by
  cases ps with
  | nil => exact h
  | cons p ps => exact h.1

theorem ne_zero (h : Path link a ps) (hc : c ∈ ps) : c ≠ 0 := by
  induction ps generalizing a with
  | nil => cases hc
  | cons p ps ih =>
    obtain ⟨-, hne, hRest⟩ := h
    rcases List.mem_cons.mp hc with rfl | hLater
    · exact hne
    · exact ih hRest hLater

theorem link_eq (h : Path link a (pre ++ c :: post)) : link c = post.headD 0 := by
  induction pre generalizing a with
  | nil => exact h.2.2.start_eq
  | cons p pre ih => exact ih h.2.2

theorem congr (h : Path link a ps) (hSame : ∀ p ∈ ps, link' p = link p) : Path link' a ps := by
  induction ps generalizing a with
  | nil => exact h
  | cons p ps ih =>
    obtain ⟨rfl, hne, hRest⟩ := h
    refine ⟨rfl, hne, ?_⟩
    rw [hSame _ List.mem_cons_self]
    exact ih hRest fun p hp => hSame p (List.mem_cons_of_mem _ hp)

/-- A node before all others. -/
theorem before (h : Path link a post) (hn : n ≠ 0) (hNew : link' n = post.headD 0)
    (hSame : ∀ p ∈ post, link' p = link p) : Path link' n (n :: post) := by
  refine ⟨rfl, hn, ?_⟩
  rw [hNew, ← h.start_eq]
  exact h.congr hSame

/-- A node behind `q`, the last one of `pre`, or before all others where that is null. -/
theorem insert (h : Path link a (pre ++ post)) (hNodup : (pre ++ post).Nodup) (hn : n ≠ 0)
    (hFresh : n ∉ pre ++ post) (hq : pre.getLastD 0 = q) (hNew : link' n = post.headD 0)
    (hSeam : q ≠ 0 → link' q = n) (hOthers : ∀ p, p ≠ n → p ≠ q → link' p = link p) :
    Path link' (if q = 0 then n else a) (pre ++ n :: post) := by
  induction pre generalizing a with
  | nil =>
    obtain rfl : 0 = q := hq
    exact before h hn hNew fun p hp =>
      hOthers p (fun hEq => hFresh (hEq ▸ hp)) (ne_zero h hp)
  | cons p pre ih =>
    obtain ⟨rfl, hne, hRest⟩ := h
    obtain ⟨hNot, hNodup⟩ := List.nodup_cons.mp hNodup
    obtain ⟨hna, hFresh⟩ := not_or.mp (mt List.mem_cons.mpr hFresh)
    cases pre with
    | nil =>
      obtain rfl : a = q := hq
      rw [if_neg hne]
      refine ⟨rfl, hne, ?_⟩
      rw [hSeam hne]
      refine before hRest hn hNew fun p hp => hOthers p (fun hEq => hFresh (hEq ▸ hp)) ?_
      rintro rfl
      exact hNot hp
    | cons c pre =>
      have hMem : q ∈ c :: pre := by
        rw [← hq, List.getLastD_cons, List.getLastD_cons]
        exact List.getLastD_mem_cons
      have hqne := ne_zero hRest (List.mem_append_left _ hMem)
      have hFirst : link' a = link a := hOthers a (Ne.symm hna) fun hEq =>
        hNot (List.mem_append_left _ (hEq ▸ hMem))
      have hInner := ih hRest hNodup hFresh hq
      rw [if_neg hqne] at hInner ⊢
      exact ⟨rfl, hne, hFirst ▸ hInner⟩

/-- A path that ends behind `q`, the last node of `pre`, or at once where that is null. -/
theorem cut (h : Path link a (pre ++ post)) (hNodup : (pre ++ post).Nodup)
    (hq : pre.getLastD 0 = q) (hEnd : q ≠ 0 → link' q = 0)
    (hOthers : ∀ p, p ≠ 0 → p ≠ q → link' p = link p) :
    Path link' (if q = 0 then 0 else a) pre := by
  induction pre generalizing a with
  | nil =>
    obtain rfl : 0 = q := hq
    exact if_pos rfl
  | cons p pre ih =>
    obtain ⟨rfl, hne, hRest⟩ := h
    obtain ⟨hNot, hNodup⟩ := List.nodup_cons.mp hNodup
    cases pre with
    | nil =>
      obtain rfl : a = q := hq
      rw [if_neg hne]
      exact ⟨rfl, hne, hEnd hne⟩
    | cons c pre =>
      have hMem : q ∈ c :: pre := by
        rw [← hq, List.getLastD_cons, List.getLastD_cons]
        exact List.getLastD_mem_cons
      have hqne := ne_zero hRest (List.mem_append_left _ hMem)
      have hFirst : link' a = link a := hOthers a hne fun hEq =>
        hNot (List.mem_append_left _ (hEq ▸ hMem))
      have hLater := ih hRest hNodup hq
      rw [if_neg hqne] at hLater ⊢
      rw [← hFirst] at hLater
      exact ⟨rfl, hne, hLater⟩

end Path

structure DoublyLinked (next prev : Nat → Nat) (head tail : Nat) (ps : List Nat) : Prop where
  forward : Path next head ps
  backward : Path prev tail ps.reverse
  nodup : ps.Nodup

namespace DoublyLinked

theorem nil (next prev : Nat → Nat) : DoublyLinked next prev 0 0 [] :=
  ⟨rfl, rfl, List.nodup_nil⟩

theorem getLastD_reverse (ps : List Nat) : ps.reverse.getLastD 0 = ps.headD 0 := by
  rw [List.getLastD_eq_getLast?, List.getLast?_reverse, List.headD_eq_head?_getD]

theorem headD_reverse (ps : List Nat) : ps.reverse.headD 0 = ps.getLastD 0 := by
  rw [← getLastD_reverse, List.reverse_reverse]

theorem prev_eq (h : DoublyLinked next prev head tail (pre ++ c :: post)) :
    prev c = pre.getLastD 0 := by
  have hBack := h.backward
  rw [List.reverse_append, List.reverse_cons, List.append_assoc] at hBack
  rw [← headD_reverse]
  exact hBack.link_eq

theorem tail_eq (h : DoublyLinked next prev head tail ps) : tail = ps.getLastD 0 := by
  rw [← headD_reverse]
  exact h.backward.start_eq

/-- A new node `n` between `q` and `r`, of which either may be null. -/
theorem insert (h : DoublyLinked next prev head tail (pre ++ post)) (hn : n ≠ 0)
    (hFresh : n ∉ pre ++ post) (hq : pre.getLastD 0 = q) (hr : post.headD 0 = r)
    (hNext : next' n = r) (hPrev : prev' n = q) (hBefore : q ≠ 0 → next' q = n)
    (hAfter : r ≠ 0 → prev' r = n) (hNextOf : ∀ p, p ≠ n → p ≠ q → next' p = next p)
    (hPrevOf : ∀ p, p ≠ n → p ≠ r → prev' p = prev p) :
    DoublyLinked next' prev' (if q = 0 then n else head) (if r = 0 then n else tail)
      (pre ++ n :: post) where
  forward := h.forward.insert h.nodup hn hFresh hq (hNext.trans hr.symm) hBefore hNextOf
  backward := by
    have hBack := h.backward
    have hNodup := List.nodup_reverse.mpr h.nodup
    have hNot : n ∉ (pre ++ post).reverse := fun hMem => hFresh (List.mem_reverse.mp hMem)
    rw [List.reverse_append] at hBack hNodup hNot
    rw [List.reverse_append, List.reverse_cons, List.append_assoc]
    exact hBack.insert hNodup hn hNot ((getLastD_reverse post).trans hr)
      (hPrev.trans (hq.symm.trans (headD_reverse pre).symm)) hAfter hPrevOf
  nodup := List.nodup_middle.mpr (List.nodup_cons.mpr ⟨hFresh, h.nodup⟩)

end DoublyLinked

end Machine
