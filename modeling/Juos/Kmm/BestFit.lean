import Juos.Kmm.Tiling

/-!
# Which free chunk is reused

On a well-formed list the search of `__malloc_big` stops at the first free chunk that is large
enough, and it never looks at the last chunk. `bestFit_iff` says when this chunk is also the
smallest one that is large enough.
-/

namespace Juos.Kmm

open Machine HeapSystem

variable {m m' : Memory} {head c d fuel req : Nat} {h : Heap} {cs pre post : List Nat}
  {p : Placement}

/-! ## Well-formed lists -/

/-- A list that is linked both ways, in the order of addresses and without gaps, whose headers lie
in the address space. -/
structure WellFormed (m : Memory) (head : Nat) (cs : List Nat) : Prop
    extends Represented m head cs where
  pos : 0 < head
  fits : ∀ c ∈ cs, c + 13 ≤ 4294967296

namespace WellFormed

theorem chunks (h : WellFormed m head cs) : Chunks m cs where
  chain := h.chain.imp fun c n hStep => ⟨hStep.1, hStep.2.2.1, Or.inl hStep.2.1⟩
  last := h.last
  first c hc := by
    obtain rfl : head = c := by simpa [h.head_eq] using hc
    exact h.first
  pos c hc := by
    have hSorted : cs.Pairwise fun c d => c + 13 ≤ d := by
      have : Trans (fun c d : Nat => c + 13 ≤ d) (fun c d : Nat => c + 13 ≤ d)
          (fun c d : Nat => c + 13 ≤ d) := ⟨fun h₁ h₂ => by omega⟩
      exact (h.chain.imp fun _ _ hStep => hStep.2.2.1).pairwise
    have hHead := h.head_eq
    cases cs with
    | nil => cases hc
    | cons e cs =>
      obtain rfl : e = head := by simpa using hHead
      rcases List.mem_cons.mp hc with rfl | hRest
      · exact h.pos
      · have := (List.pairwise_cons.mp hSorted).1 c hRest
        omega
  fits := h.fits

/-- A chunk with a successor reaches up to it. -/
theorem extent (h : WellFormed m head (pre ++ c :: d :: post)) :
    next m c = d ∧ d = c + size m c := by
  obtain ⟨-, hStep, -⟩ := List.isChain_append_cons_cons.mp h.chain
  exact ⟨hStep.1, hStep.2.2.2⟩

theorem congr (h : WellFormed m head cs) (hLinks : ∀ d ∈ cs,
    prev m' d = prev m d ∧ next m' d = next m d ∧ size m' d = size m d) :
    WellFormed m' head cs where
  head_eq := h.head_eq
  chain := h.chain.imp_of_mem_imp fun x y hx hy hStep => by
    obtain ⟨-, hNext, hSize⟩ := hLinks x hx
    rw [hNext, hSize, (hLinks y hy).1]
    exact hStep
  last d hd := ((hLinks d (List.mem_of_getLast? hd)).2.1).trans (h.last d hd)
  first := ((hLinks head (List.mem_of_head? h.head_eq)).1).trans h.first
  pos := h.pos
  fits := h.fits

theorem prev_of_split (h : WellFormed m head (pre ++ c :: post)) :
    prev m c = pre.getLast?.getD 0 := by
  rcases List.eq_nil_or_concat pre with rfl | ⟨pre, d, rfl⟩
  · have hHead : c = head := by simpa using h.head_eq
    rw [hHead, h.first]
    rfl
  · rw [List.concat_eq_append, List.append_assoc, List.singleton_append] at h
    obtain ⟨-, hStep, -⟩ := List.isChain_append_cons_cons.mp h.chain
    simpa using hStep.2.1

end WellFormed

/-! ## The search -/

/-- The chunk is free and large enough. -/
def Suits (m : Memory) (req c : Nat) : Prop := used m c = false ∧ req ≤ size m c

instance : DecidablePred (Suits m req) := fun _ => inferInstanceAs (Decidable (_ ∧ _))

/-- The first chunk that suits, except that the last chunk is not looked at. -/
def firstSuiting (m : Memory) (req : Nat) (cs : List Nat) : Option Nat :=
  cs.dropLast.find? fun c => Suits m req c

/-- Where the search ends. -/
def FirstFit (m : Memory) (req : Nat) (cs : List Nat) : Placement → Prop
  | .first _ => False
  | .hole c => firstSuiting m req cs = some c
  | .append last => cs.getLast? = some last ∧ firstSuiting m req cs = none

theorem firstFit_searchHole (h : WellFormed m head (pre ++ c :: post))
    (hRun : searchHole m req fuel c = some p) : FirstFit m req (c :: post) p := by
  induction fuel generalizing pre c post with
  | zero => cases hRun
  | succ fuel ih =>
    rw [searchHole] at hRun
    cases post with
    | nil =>
      have hEnd : next m c = 0 := by simpa using h.chunks.next_of_split
      rw [if_pos hEnd] at hRun
      cases hRun
      exact ⟨rfl, rfl⟩
    | cons n post =>
      obtain ⟨hNext, hSize⟩ := h.extent
      have hLater : WellFormed m head ((pre ++ [c]) ++ n :: post) := by simpa using h
      have hc := h.chunks.pos c (by simp)
      have hn := h.chunks.lt (show n ∈ pre ++ c :: n :: post by simp)
      have hExtent : ptrSub n c = size m c := by
        rw [ptrSub_of_le (by omega) hn]
        omega
      rw [hNext, hExtent, if_neg (by omega)] at hRun
      have hFirst : firstSuiting m req (c :: n :: post) =
          if Suits m req c then some c else firstSuiting m req (n :: post) := by
        unfold firstSuiting
        rw [List.dropLast_cons_cons, List.find?_cons]
        split_ifs with hSuits <;> simp [hSuits]
      split_ifs at hRun with hHole
      · cases hRun
        rw [FirstFit, hFirst, if_pos ⟨hHole.1, hHole.2.2⟩]
      · have hNot : ¬ Suits m req c := by
          rintro ⟨hFree, hLarge⟩
          exact hHole ⟨hFree, by omega, hLarge⟩
        rw [if_neg hNot] at hFirst
        have hRest := ih hLater hRun
        cases p with
        | first e => exact hRest
        | hole e => exact hFirst.trans hRest
        | append e => exact ⟨by simpa using hRest.1, hFirst.trans hRest.2⟩

/-! ## The best fit -/

/-- A free chunk of the smallest extent that is large enough, or a new one behind the last chunk if
no free chunk is large enough. -/
def BestFit (m : Memory) (req : Nat) (cs : List Nat) : Placement → Prop
  | .first _ => False
  | .hole c => c ∈ cs ∧ Suits m req c ∧ ∀ d ∈ cs, Suits m req d → size m c ≤ size m d
  | .append last => cs.getLast? = some last ∧ ∀ d ∈ cs, ¬ Suits m req d

/-- No free chunk is large enough, or the first one that is, not counting the last chunk, is the
smallest of all that are. -/
def FirstIsBest (m : Memory) (req : Nat) (cs : List Nat) : Prop :=
  (∀ d ∈ cs, ¬ Suits m req d) ∨
    ∃ c, firstSuiting m req cs = some c ∧ ∀ d ∈ cs, Suits m req d → size m c ≤ size m d

theorem suits_of_firstSuiting (h : firstSuiting m req cs = some c) : c ∈ cs ∧ Suits m req c := by
  refine ⟨List.dropLast_subset cs (List.mem_of_find?_eq_some h), ?_⟩
  simpa using List.find?_some h

theorem bestFit_iff_firstIsBest (h : FirstFit m req cs p) :
    BestFit m req cs p ↔ FirstIsBest m req cs := by
  cases p with
  | first c => exact h.elim
  | hole c =>
    obtain ⟨hMem, hSuits⟩ := suits_of_firstSuiting h
    constructor
    · rintro ⟨-, -, hLeast⟩
      exact Or.inr ⟨c, h, hLeast⟩
    · rintro (hNone | ⟨d, hd, hLeast⟩)
      · exact absurd hSuits (hNone c hMem)
      · obtain rfl : c = d := Option.some.inj (h.symm.trans hd)
        exact ⟨hMem, hSuits, hLeast⟩
  | append last =>
    constructor
    · rintro ⟨-, hNone⟩
      exact Or.inl hNone
    · rintro (hNone | ⟨d, hd, -⟩)
      · exact ⟨h.1, hNone⟩
      · cases h.2.symm.trans hd

/-- On a well-formed list with a live chunk `__malloc_big` returns, and the chunk it takes is the
best fit exactly when the first fit is. -/
theorem bestFit_iff (hForm : WellFormed m h.bigChunks cs) (hLive : h.allocatedChunks ≠ 0)
    (hFuel : cs.length ≤ fuel) : ∃ p r, place fuel h m req = some p ∧
      mallocBig fuel h m req = some r ∧ r.1 = ptrAdvance (putChunk m req p).1 sizeofBigChunk ∧
      (BestFit m req cs p ↔ FirstIsBest m req cs) := by
  have hHead := hForm.head_eq
  cases cs with
  | nil => cases hHead
  | cons c post =>
    obtain rfl : c = h.bigChunks := by simpa using hHead
    have hSplit : WellFormed m h.bigChunks ([] ++ h.bigChunks :: post) := hForm
    obtain ⟨p, hRun⟩ : ∃ p, searchHole m req fuel h.bigChunks = some p :=
      searchHole_total hSplit.chunks hFuel
    have hPlace : place fuel h m req = some p := by rw [place, if_neg hLive, hRun]
    have hIff := bestFit_iff_firstIsBest (firstFit_searchHole hSplit hRun)
    rw [mallocBig, hPlace]
    exact ⟨p, _, rfl, rfl, rfl, hIff⟩

/-! ## A heap with a free chunk at its end -/

theorem wellFormed_pair {a b n : Nat} {u v : Bool} (ha : chunkAt m a = ⟨0, b, b - a, u⟩)
    (hb : chunkAt m b = ⟨a, 0, n, v⟩) (hPos : 0 < a) (hGap : a + 13 ≤ b)
    (hFits : b + 13 ≤ 4294967296) : WellFormed m a [a, b] where
  head_eq := rfl
  chain := by
    refine .cons_cons ⟨next_of_chunkAt ha, prev_of_chunkAt hb, hGap, ?_⟩ (.singleton _)
    have hSize : size m a = b - a := size_of_chunkAt ha
    omega
  last c hc := by
    obtain rfl : b = c := by simpa using hc
    exact next_of_chunkAt hb
  first := prev_of_chunkAt ha
  pos := hPos
  fits c hc := by
    rcases List.mem_pair.mp hc with rfl | rfl <;> omega

/-- Two chunks, the second one freed again. -/
theorem kernelHeap_free_last : ∃ t, kernelHeap (fitsNow 8 0xC1000000)
      [.malloc 100, .malloc 100, .free 0xC0001B15] = some t ∧
    t.mm.mappedHeap.bigChunks = 0xC0001A90 ∧ t.mm.mappedHeap.allocatedChunks = 1 ∧
    chunkAt (t.mem ()) 0xC0001A90 = ⟨0, 0xC0001B08, 120, true⟩ ∧
    chunkAt (t.mem ()) 0xC0001B08 = ⟨0xC0001A90, 0, 120, false⟩ := by
  have hEnd : (kernelHeap (fitsNow 8 0xC1000000)
      [.malloc 100, .malloc 100, .free 0xC0001B15]).map
        (fun t => (t.mm.mappedHeap.bigChunks, t.mm.mappedHeap.allocatedChunks,
          chunkAt (t.mem ()) 0xC0001A90, chunkAt (t.mem ()) 0xC0001B08)) =
      some (0xC0001A90, 1, ⟨0, 0xC0001B08, 120, true⟩, ⟨0xC0001A90, 0, 120, false⟩) := by
    decide +kernel
  obtain ⟨t, ht, hEq⟩ := Option.map_eq_some_iff.mp hEnd
  simp only [Prod.mk.injEq] at hEq
  exact ⟨t, ht, hEq⟩

theorem bestFit_iff_free_last : ∃ t p r, kernelHeap (fitsNow 8 0xC1000000)
      [.malloc 100, .malloc 100, .free 0xC0001B15] = some t ∧
    place 2 t.mm.mappedHeap (t.mem ()) (reqSize 200) = some p ∧
    mallocBig 2 t.mm.mappedHeap (t.mem ()) (reqSize 200) = some r ∧
    r.1 = ptrAdvance (putChunk (t.mem ()) (reqSize 200) p).1 sizeofBigChunk ∧
    (BestFit (t.mem ()) (reqSize 200) [0xC0001A90, 0xC0001B08] p ↔
      FirstIsBest (t.mem ()) (reqSize 200) [0xC0001A90, 0xC0001B08]) := by
  obtain ⟨t, ht, hHead, hCount, hFirst, hSecond⟩ := kernelHeap_free_last
  have hForm : WellFormed (t.mem ()) t.mm.mappedHeap.bigChunks [0xC0001A90, 0xC0001B08] := by
    rw [hHead]
    exact wellFormed_pair hFirst hSecond (by decide) (by decide) (by decide)
  have hLive : t.mm.mappedHeap.allocatedChunks ≠ 0 := by
    rw [hCount]
    decide
  obtain ⟨p, r, hAll⟩ := bestFit_iff hForm hLive (Nat.le_refl 2)
  exact ⟨t, p, r, ht, hAll⟩

/-- The free chunk at the end is large enough, and a new one is appended behind it. -/
theorem not_bestFit_free_last : ∃ t cs p, kernelHeap (fitsNow 8 0xC1000000)
      [.malloc 100, .malloc 100, .free 0xC0001B15] = some t ∧
    WellFormed (t.mem ()) t.mm.mappedHeap.bigChunks cs ∧ t.mm.mappedHeap.allocatedChunks ≠ 0 ∧
    place 2 t.mm.mappedHeap (t.mem ()) (reqSize 100) = some p ∧
    ¬ BestFit (t.mem ()) (reqSize 100) cs p := by
  obtain ⟨t, ht, hHead, hCount, hFirst, hSecond⟩ := kernelHeap_free_last
  have hForm : WellFormed (t.mem ()) t.mm.mappedHeap.bigChunks [0xC0001A90, 0xC0001B08] := by
    rw [hHead]
    exact wellFormed_pair hFirst hSecond (by decide) (by decide) (by decide)
  have hLive : t.mm.mappedHeap.allocatedChunks ≠ 0 := by
    rw [hCount]
    decide
  have hPlace : place 2 t.mm.mappedHeap (t.mem ()) (reqSize 100) = some (.append 0xC0001B08) := by
    have hNext : next (t.mem ()) 0xC0001A90 = 0xC0001B08 := next_of_chunkAt hFirst
    have hUsed : used (t.mem ()) 0xC0001A90 = true := used_of_chunkAt hFirst
    have hEnd : next (t.mem ()) 0xC0001B08 = 0 := next_of_chunkAt hSecond
    rw [place, if_neg hLive, hHead]
    simp [searchHole, hNext, hUsed, hEnd]
  refine ⟨t, _, _, ht, hForm, hLive, hPlace, ?_⟩
  rintro ⟨-, hNone⟩
  apply hNone 0xC0001B08 (by simp)
  exact ⟨used_of_chunkAt hSecond, (by decide : reqSize 100 ≤ 120).trans_eq
    (size_of_chunkAt hSecond).symm⟩

end Juos.Kmm
