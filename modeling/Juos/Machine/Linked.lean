import Mathlib.Data.List.Chain
import Mathlib.Logic.Relation
import Mathlib.Tactic.Common

/-!
# Linked nodes

A list of nodes is threaded through memory by a forward link `nxt` and a back link `prv`, null
being `0`. `Threaded nxt prv cs` says that `cs` is the whole list from its first node: the forward
links run through `cs` and end with null, and a back link leads to the node before or is null. A
null back link is allowed inside the list, because an edit may leave one there; the forward walk
does not depend on it. `Linked gap nxt prv cs` adds that the nodes lie at increasing addresses, at
least `gap` apart.

* `congr`, `unlink` and `append` are the three edits: nothing but back links cut, one node taken
  out, one node added behind the last.
* `mem_of_path`: the forward walk from a node of the list stays in the list.
* `Linked.next_le`: no node lies strictly between a node and its successor.
-/

namespace Machine

structure Threaded (nxt prv : Nat → Nat) (cs : List Nat) : Prop where
  chain : cs.IsChain fun c n => nxt c = n ∧ (prv n = c ∨ prv n = 0)
  last : ∀ c ∈ cs.getLast?, nxt c = 0
  first : ∀ c ∈ cs.head?, prv c = 0
  pos : ∀ c ∈ cs, 0 < c

/-- One step of the forward walk. -/
def Forward (nxt : Nat → Nat) (c n : Nat) : Prop := nxt c = n ∧ n ≠ 0

namespace Threaded

variable {nxt prv nxt' prv' : Nat → Nat} {cs cs' pre post : List Nat} {c d n t : Nat}

theorem next_of_split (h : Threaded nxt prv (pre ++ c :: post)) : nxt c = post.head?.getD 0 := by
  cases post with
  | nil => exact h.last c (by simp)
  | cons n post => exact (List.isChain_append_cons_cons.mp h.chain).2.1.1

theorem prev_of_split (h : Threaded nxt prv (pre ++ d :: c :: post)) : prv c = d ∨ prv c = 0 :=
  (List.isChain_append_cons_cons.mp h.chain).2.1.2

/-- A back link that is not null ends at the node before. -/
theorem split_of_prev (h : Threaded nxt prv (pre ++ c :: post)) (hPrev : prv c ≠ 0) :
    ∃ pre', pre = pre' ++ [prv c] := by
  rcases List.eq_nil_or_concat pre with rfl | ⟨pre', d, rfl⟩
  · exact absurd (h.first c (by simp)) hPrev
  · rw [List.concat_eq_append, List.append_assoc] at h
    rcases h.prev_of_split with hd | hz
    · exact ⟨pre', by rw [List.concat_eq_append, hd]⟩
    · exact absurd hz hPrev

theorem next_mem (h : Threaded nxt prv cs) (hc : c ∈ cs) (hNext : nxt c ≠ 0) : nxt c ∈ cs := by
  obtain ⟨pre, post, rfl⟩ := List.append_of_mem hc
  have hEq := h.next_of_split
  cases post with
  | nil => exact absurd (by simpa using hEq) hNext
  | cons n post =>
    have hn : nxt c = n := by simpa using hEq
    simp [hn]

theorem mem_of_path (h : Threaded nxt prv cs) (hc : c ∈ cs)
    (hPath : Relation.ReflTransGen (Forward nxt) c d) : d ∈ cs := by
  induction hPath with
  | refl => exact hc
  | tail _ hStep ih =>
    obtain ⟨rfl, hne⟩ := hStep
    exact h.next_mem ih hne

/-- Every node of the list is on the forward walk from the first one. -/
theorem path_of_mem (h : Threaded nxt prv (c :: cs)) (hd : d ∈ c :: cs) :
    Relation.ReflTransGen (Forward nxt) c d := by
  have hWalk : ∀ (cs : List Nat) (c : Nat), (c :: cs).IsChain (fun c n => nxt c = n) →
      (∀ d ∈ c :: cs, 0 < d) → d ∈ c :: cs → Relation.ReflTransGen (Forward nxt) c d := by
    intro cs
    induction cs with
    | nil =>
      intro c _ _ hd
      rw [List.mem_singleton.mp hd]
    | cons n cs ih =>
      intro c hChain hPos hd
      obtain ⟨hNext, hRest⟩ := List.isChain_cons_cons.mp hChain
      rcases List.mem_cons.mp hd with rfl | hLater
      · exact .refl
      · exact .head ⟨hNext, (hPos n (by simp)).ne'⟩
          (ih n hRest (fun e he => hPos e (List.mem_cons_of_mem _ he)) hLater)
  exact hWalk cs c (h.chain.imp fun _ _ hStep => hStep.1) h.pos hd

/-- The forward links determine the list. -/
theorem unique (h : Threaded nxt prv cs) (h' : Threaded nxt prv cs')
    (hHead : cs.head? = cs'.head?) : cs = cs' := by
  have hWalk : ∀ cs cs' : List Nat, cs.IsChain (fun c n => nxt c = n) →
      cs'.IsChain (fun c n => nxt c = n) → (∀ c ∈ cs.getLast?, nxt c = 0) →
      (∀ c ∈ cs'.getLast?, nxt c = 0) → (∀ c ∈ cs, 0 < c) → (∀ c ∈ cs', 0 < c) →
      cs.head? = cs'.head? → cs = cs' := by
    intro cs
    induction cs with
    | nil =>
      intro cs' _ _ _ _ _ _ hHead
      exact (List.head?_eq_none_iff.mp hHead.symm).symm
    | cons c cs ih =>
      intro cs' hChain hChain' hLast hLast' hPos hPos' hHead
      cases cs' with
      | nil => cases hHead
      | cons c' cs' =>
        obtain rfl : c = c' := by simpa using hHead
        congr 1
        cases cs with
        | nil =>
          cases cs' with
          | nil => rfl
          | cons n' cs' =>
            have hEnd : nxt c = 0 := hLast c rfl
            have hNext : nxt c = n' := (List.isChain_cons_cons.mp hChain').1
            have := hPos' n' (by simp)
            omega
        | cons n cs =>
          obtain ⟨hNext, hRest⟩ := List.isChain_cons_cons.mp hChain
          cases cs' with
          | nil =>
            have hEnd : nxt c = 0 := hLast' c rfl
            have := hPos n (by simp)
            omega
          | cons n' cs' =>
            obtain ⟨hNext', hRest'⟩ := List.isChain_cons_cons.mp hChain'
            refine ih (n' :: cs') hRest hRest' (fun d hd => hLast d (by simpa using hd))
              (fun d hd => hLast' d (by simpa using hd))
              (fun d hd => hPos d (List.mem_cons_of_mem _ hd))
              (fun d hd => hPos' d (List.mem_cons_of_mem _ hd)) ?_
            rw [List.head?_cons, List.head?_cons, ← hNext, ← hNext']
  exact hWalk cs cs' (h.chain.imp fun _ _ hStep => hStep.1) (h'.chain.imp fun _ _ hStep => hStep.1)
    h.last h'.last h.pos h'.pos hHead

/-- Forward links are kept and back links are kept or cut. -/
theorem congr (h : Threaded nxt prv cs) (hNext : ∀ c ∈ cs, nxt' c = nxt c)
    (hPrev : ∀ c ∈ cs, prv' c = prv c ∨ prv' c = 0) : Threaded nxt' prv' cs where
  chain := h.chain.imp_of_mem_imp fun c n hc hn hStep => by
    refine ⟨(hNext c hc).trans hStep.1, ?_⟩
    rcases hPrev n hn with he | hz
    · rw [he]
      exact hStep.2
    · exact Or.inr hz
  last c hc := (hNext c (List.mem_of_getLast? hc)).trans (h.last c hc)
  first c hc := by
    rcases hPrev c (List.mem_of_head? hc) with he | hz
    · exact he.trans (h.first c hc)
    · exact hz
  pos := h.pos

theorem sublist_unlink (pre post : List Nat) (c t : Nat) :
    (pre ++ c :: post).Sublist (pre ++ c :: t :: post) :=
  ((List.sublist_cons_self t post).cons_cons c).append_left pre

/-- The node that is taken out is the only one that is missing. -/
theorem eq_of_unlinked (hd : d ∈ pre ++ c :: t :: post) (hNot : d ∉ pre ++ c :: post) :
    d = t ∧ d ≠ c := by
  simp only [List.mem_append, List.mem_cons, not_or] at hd hNot
  obtain ⟨hPre, hdc, hPost⟩ := hNot
  exact ⟨((hd.resolve_left hPre).resolve_left hdc).resolve_right hPost, hdc⟩

/-- Take the node `t` behind `c` out: `c` leads on to where `t` led, and the node there leads
back to `c`. -/
theorem unlink (h : Threaded nxt prv (pre ++ c :: t :: post)) (hNext : nxt' c = nxt t)
    (hPrev : ∀ n ∈ post.head?, prv' n = c) (hNextOf : ∀ d ∈ pre ++ post, nxt' d = nxt d)
    (hPrevOf : ∀ d ∈ pre ++ c :: post.tail, prv' d = prv d) :
    Threaded nxt' prv' (pre ++ c :: post) := by
  obtain ⟨hPre, hBack, hSeam⟩ := List.isChain_append.mp h.chain
  obtain ⟨-, hRest⟩ := List.isChain_cons_cons.mp hBack
  have hPre' : pre.IsChain fun c n => nxt' c = n ∧ (prv' n = c ∨ prv' n = 0) :=
    hPre.imp_of_mem_imp fun x y hx hy hStep => by
      rw [hNextOf x (List.mem_append_left _ hx), hPrevOf y (List.mem_append_left _ hy)]
      exact hStep
  have hPost' : (c :: post).IsChain
      fun c n => nxt' c = n ∧ (prv' n = c ∨ prv' n = 0) := by
    cases post with
    | nil => exact .singleton c
    | cons n post =>
      obtain ⟨htn, hPost⟩ := List.isChain_cons_cons.mp hRest
      refine List.isChain_cons_cons.mpr ⟨⟨hNext.trans htn.1, Or.inl (hPrev n rfl)⟩, ?_⟩
      apply hPost.imp_of_mem_tail_imp
      intro x y hx hy hStep
      rw [hNextOf x (List.mem_append_right _ hx),
        hPrevOf y (List.mem_append_right _ (List.mem_cons_of_mem _ hy))]
      exact hStep
  refine ⟨List.isChain_append.mpr ⟨hPre', hPost', ?_⟩, ?_, ?_, ?_⟩
  · intro x hx y hy
    obtain rfl : c = y := by simpa using hy
    rw [hNextOf x (List.mem_append_left _ (List.mem_of_getLast? hx)), hPrevOf c (by simp)]
    exact hSeam x hx c rfl
  · intro d hd
    cases post with
    | nil =>
      obtain rfl : c = d := by simpa using hd
      exact hNext.trans (h.last t (by simp))
    | cons n post =>
      have hLast : d ∈ (n :: post).getLast? := by simpa using hd
      rw [hNextOf d (List.mem_append_right _ (List.mem_of_getLast? hLast))]
      exact h.last d (by simpa using hd)
  · intro d hd
    cases pre with
    | nil =>
      obtain rfl : c = d := by simpa using hd
      exact (hPrevOf c (by simp)).trans (h.first c (by simp))
    | cons p pre =>
      obtain rfl : p = d := by simpa using hd
      exact (hPrevOf p (by simp)).trans (h.first p (by simp))
  · intro d hd
    apply h.pos d
    rcases List.mem_append.mp hd with hd | hd
    · exact List.mem_append_left _ hd
    · rcases List.mem_cons.mp hd with rfl | hd
      · simp
      · simp [hd]

/-- Add the node `n` behind the last node `c`. -/
theorem append (h : Threaded nxt prv (pre ++ [c])) (hn : 0 < n) (hNext : nxt' c = n)
    (hEnd : nxt' n = 0) (hPrev : prv' n = c)
    (hNextOf : ∀ d ∈ pre, nxt' d = nxt d) (hPrevOf : ∀ d ∈ pre ++ [c], prv' d = prv d) :
    Threaded nxt' prv' (pre ++ [c] ++ [n]) := by
  obtain ⟨hPre, -, hSeam⟩ := List.isChain_append.mp h.chain
  have hOld : (pre ++ [c]).IsChain
      fun c n => nxt' c = n ∧ (prv' n = c ∨ prv' n = 0) := by
    refine List.isChain_append.mpr ⟨hPre.imp_of_mem_imp fun x y hx hy hStep => ?_,
      .singleton c, ?_⟩
    · rw [hNextOf x hx, hPrevOf y (List.mem_append_left _ hy)]
      exact hStep
    · intro x hx y hy
      obtain rfl : c = y := by simpa using hy
      rw [hNextOf x (List.mem_of_getLast? hx), hPrevOf c (by simp)]
      exact hSeam x hx c rfl
  refine ⟨List.isChain_append.mpr ⟨hOld, .singleton n, ?_⟩, ?_, ?_, ?_⟩
  · intro x hx y hy
    obtain rfl : c = x := by simpa using hx
    obtain rfl : n = y := by simpa using hy
    exact ⟨hNext, Or.inl hPrev⟩
  · intro d hd
    obtain rfl : n = d := by simpa using hd
    exact hEnd
  · intro d hd
    have hFirst : d ∈ (pre ++ [c]).head? := by
      cases pre with
      | nil => simpa using hd
      | cons p pre => simpa using hd
    exact (hPrevOf d (List.mem_of_head? hFirst)).trans (h.first d hFirst)
  · intro d hd
    rcases List.mem_append.mp hd with hd | hd
    · exact h.pos d hd
    · obtain rfl : d = n := by simpa using hd
      exact hn

end Threaded

/-! ## Increasing addresses -/

structure Linked (gap : Nat) (nxt prv : Nat → Nat) (cs : List Nat) : Prop where
  chain : cs.IsChain fun c n => nxt c = n ∧ c + gap ≤ n ∧ (prv n = c ∨ prv n = 0)
  last : ∀ c ∈ cs.getLast?, nxt c = 0
  first : ∀ c ∈ cs.head?, prv c = 0
  pos : ∀ c ∈ cs, 0 < c

namespace Linked

variable {gap : Nat} {nxt prv nxt' prv' : Nat → Nat} {cs pre post : List Nat} {c d n t : Nat}

theorem threaded (h : Linked gap nxt prv cs) : Threaded nxt prv cs where
  chain := h.chain.imp fun _ _ hStep => ⟨hStep.1, hStep.2.2⟩
  last := h.last
  first := h.first
  pos := h.pos

theorem of_threaded (h : Threaded nxt prv cs) (hSorted : cs.Pairwise fun c d => c + gap ≤ d) :
    Linked gap nxt prv cs where
  chain := by
    apply List.isChain_iff_getElem.mpr
    intro i hi
    obtain ⟨hNext, hPrev⟩ := h.chain.getElem i hi
    exact ⟨hNext, hSorted.isChain.getElem i hi, hPrev⟩
  last := h.last
  first := h.first
  pos := h.pos

theorem sorted (h : Linked gap nxt prv cs) : cs.Pairwise fun c d => c + gap ≤ d := by
  have : Trans (fun c d : Nat => c + gap ≤ d) (fun c d : Nat => c + gap ≤ d)
      (fun c d : Nat => c + gap ≤ d) := ⟨fun h₁ h₂ => by omega⟩
  exact (h.chain.imp fun _ _ hStep => hStep.2.1).pairwise

theorem next_of_split (h : Linked gap nxt prv (pre ++ c :: post)) :
    nxt c = post.head?.getD 0 :=
  h.threaded.next_of_split

/-- A back link that is not null ends at the node before. -/
theorem split_of_prev (h : Linked gap nxt prv (pre ++ c :: post)) (hPrev : prv c ≠ 0) :
    ∃ pre', pre = pre' ++ [prv c] :=
  h.threaded.split_of_prev hPrev

theorem mem_post_of_lt (h : Linked gap nxt prv (pre ++ c :: post)) (hd : d ∈ pre ++ c :: post)
    (hLt : c < d) : d ∈ post := by
  have hSorted := List.pairwise_append.mp h.sorted
  rcases List.mem_append.mp hd with hPre | hRest
  · have := hSorted.2.2 d hPre c (List.mem_cons_self)
    omega
  · rcases List.mem_cons.mp hRest with rfl | hPost
    · omega
    · exact hPost

theorem next_le (h : Linked gap nxt prv cs) (hc : c ∈ cs) (hd : d ∈ cs) (hLt : c < d) :
    nxt c ≠ 0 ∧ nxt c ≤ d := by
  obtain ⟨pre, post, rfl⟩ := List.append_of_mem hc
  have hPost := h.mem_post_of_lt hd hLt
  have hNext := h.next_of_split
  cases post with
  | nil => cases hPost
  | cons n post =>
    have hn : nxt c = n := by simpa using hNext
    rw [hn]
    refine ⟨(h.pos n (by simp)).ne', ?_⟩
    rcases List.mem_cons.mp hPost with rfl | hLater
    · exact Nat.le_refl _
    · have hTail := (List.pairwise_append.mp h.sorted).2.1
      have hStep := (List.pairwise_cons.mp (List.pairwise_cons.mp hTail).2).1 d hLater
      omega

theorem next_mem (h : Linked gap nxt prv cs) (hc : c ∈ cs) (hNext : nxt c ≠ 0) :
    nxt c ∈ cs ∧ c + gap ≤ nxt c := by
  obtain ⟨pre, post, rfl⟩ := List.append_of_mem hc
  have hEq := h.next_of_split
  cases post with
  | nil => exact absurd (by simpa using hEq) hNext
  | cons n post =>
    have hn : nxt c = n := by simpa using hEq
    exact ⟨by simp [hn], (List.isChain_append_cons_cons.mp h.chain).2.1.2.1.trans_eq hn.symm⟩

/-- Distinct nodes are at least `gap` apart. -/
theorem apart (h : Linked gap nxt prv cs) (hc : c ∈ cs) (hd : d ∈ cs) (hne : c ≠ d) :
    c + gap ≤ d ∨ d + gap ≤ c := by
  rcases Nat.lt_or_gt_of_ne hne with hLt | hGt
  · have hNext := h.next_le hc hd hLt
    have := (h.next_mem hc hNext.1).2
    omega
  · have hNext := h.next_le hd hc hGt
    have := (h.next_mem hd hNext.1).2
    omega

theorem mem_of_path (h : Linked gap nxt prv cs) (hc : c ∈ cs)
    (hPath : Relation.ReflTransGen (Forward nxt) c d) : d ∈ cs :=
  h.threaded.mem_of_path hc hPath

/-- A list that ends below `bound` has at most `bound / gap` nodes. -/
theorem length_mul_le (h : Linked gap nxt prv cs) {bound : Nat}
    (hBound : ∀ c ∈ cs, c + gap ≤ bound) : cs.length * gap ≤ bound := by
  have hCount : ∀ (cs : List Nat) (low : Nat), cs.Pairwise (fun c d => c + gap ≤ d) →
      (∀ c ∈ cs, low ≤ c ∧ c + gap ≤ bound) → low ≤ bound →
        low + cs.length * gap ≤ bound := by
    intro cs
    induction cs with
    | nil => intro low _ _ hLow; simpa using hLow
    | cons c cs ih =>
      intro low hSorted hIn _
      obtain ⟨hHead, hTail⟩ := List.pairwise_cons.mp hSorted
      have hc := hIn c List.mem_cons_self
      have := ih (c + gap) hTail
        (fun d hd => ⟨hHead d hd, (hIn d (List.mem_cons_of_mem _ hd)).2⟩) hc.2
      rw [List.length_cons, Nat.succ_mul]
      omega
  have := hCount cs 0 h.sorted (fun c hc => ⟨Nat.zero_le _, hBound c hc⟩) (Nat.zero_le _)
  omega

/-- The forward links determine the list. -/
theorem unique {cs' : List Nat} (h : Linked gap nxt prv cs) (h' : Linked gap nxt prv cs')
    (hHead : cs.head? = cs'.head?) : cs = cs' :=
  h.threaded.unique h'.threaded hHead

/-- Forward links are kept and back links are kept or cut. -/
theorem congr (h : Linked gap nxt prv cs) (hNext : ∀ c ∈ cs, nxt' c = nxt c)
    (hPrev : ∀ c ∈ cs, prv' c = prv c ∨ prv' c = 0) : Linked gap nxt' prv' cs :=
  .of_threaded (h.threaded.congr hNext hPrev) h.sorted

/-- Add the node `n` behind the last node `c`. -/
theorem append (h : Linked gap nxt prv (pre ++ [c])) (hRoom : c + gap ≤ n) (hn : 0 < n)
    (hNext : nxt' c = n) (hEnd : nxt' n = 0) (hPrev : prv' n = c)
    (hNextOf : ∀ d ∈ pre, nxt' d = nxt d) (hPrevOf : ∀ d ∈ pre ++ [c], prv' d = prv d) :
    Linked gap nxt' prv' (pre ++ [c] ++ [n]) := by
  refine .of_threaded (h.threaded.append hn hNext hEnd hPrev hNextOf hPrevOf) ?_
  refine List.pairwise_append.mpr ⟨h.sorted, List.pairwise_singleton .., ?_⟩
  intro d hd e he
  obtain rfl : e = n := List.mem_singleton.mp he
  rcases List.mem_append.mp hd with hPre | hLast
  · have := (List.pairwise_append.mp h.sorted).2.2 d hPre c (List.mem_singleton_self c)
    omega
  · rw [List.mem_singleton.mp hLast]
    exact hRoom

end Linked

end Machine
