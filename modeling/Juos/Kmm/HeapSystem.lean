import Juos.Kmm.Space
import Juos.Machine.Run

/-!
# The heap as its callers use it

The globals of the memory manager lie in memory that every page directory maps to the same
frames, while the heap itself is mapped to frames of its own in each directory. A `HeapSystem` holds
the globals once, one memory for each address space of `ι`, and the list of blocks that callers
hold, each with the space it was handed out in.

`Sound start D s` is the invariant of all runs in the spaces `D` of a heap that begins at `start`.
`Sound.step` shows that a call keeps it, whichever space is loaded, as long as the call meets
`Fits` (nothing it computes leaves the address space) and `Placeable` (the chunk it picks is safe
to hand out). `Sound.safe` and `Sound.returns` say what the invariant is good for.
-/

namespace Juos.Kmm

open Machine

/-- What a program does with the heap: the two calls, and a write through a pointer. -/
inductive Call where
  | malloc (size : Nat)
  | free (ptr : Nat)
  | store (a v : Nat)
  deriving DecidableEq, Repr

/-- The blocks of `live` that were handed out in the space `d`. -/
def blocksIn {ι : Type} [DecidableEq ι] (live : List (ι × Block)) (d : ι) : List Block :=
  (live.filter fun e => e.1 = d).map Prod.snd

structure HeapSystem (ι : Type) where
  mm : MemoryManager
  mem : ι → Memory
  live : List (ι × Block)

namespace HeapSystem

variable {ι : Type}

/-! ## Conditions on a call -/

/-- No address the call computes passes `limit`: the request does not wrap when it is rounded,
and its chunk ends below `limit`. -/
def Fits (limit : Nat) (s : HeapSystem ι) (d : ι) : Call → Prop
  | .malloc size => fastbinThreshold < size → size + 20 < 4294967296 ∧
      ∀ fuel p, place fuel s.mm.mappedHeap (s.mem d) (reqSize size) = some p →
        chunkAddress (s.mem d) p + reqSize size ≤ limit
  | _ => True

theorem fits_mono {limit limit' : Nat} {s : HeapSystem ι} {d : ι} {c : Call}
    (h : s.Fits limit d c) (hLimit : limit ≤ limit') : s.Fits limit' d c := by
  cases c with
  | malloc size =>
    intro hBig
    obtain ⟨hWrap, hAll⟩ := h hBig
    exact ⟨hWrap, fun fuel p hp => (hAll fuel p hp).trans hLimit⟩
  | free ptr => trivial
  | store a v => trivial

/-- The chunk the call picks is safe to hand out. -/
def Placeable (s : HeapSystem ι) (d : ι) : Call → Prop
  | .malloc size => fastbinThreshold < size →
      ∀ fuel p, place fuel s.mm.mappedHeap (s.mem d) (reqSize size) = some p →
        SafePlace (s.mem d) size p
  | _ => True

/-! Which placement is chosen does not depend on the number of links the search was allowed to
follow, so one search decides the conditions. -/

/-- The placement the call chooses satisfies `q`. -/
def placementIs (fuel : Nat) (q : Memory → Nat → Placement → Bool) (s : HeapSystem ι) (d : ι) :
    Call → Bool
  | .malloc size => size ≤ fastbinThreshold || size + 20 < 4294967296 &&
      (place fuel s.mm.mappedHeap (s.mem d) (reqSize size)).any (q (s.mem d) size)
  | _ => true

theorem placement_of_is {fuel : Nat} {q : Memory → Nat → Placement → Bool} {s : HeapSystem ι}
    {d : ι} {size : Nat} (h : s.placementIs fuel q d (.malloc size) = true)
    (hBig : fastbinThreshold < size) : size + 20 < 4294967296 ∧
      ∀ fuel' p, place fuel' s.mm.mappedHeap (s.mem d) (reqSize size) = some p →
        q (s.mem d) size p = true := by
  simp only [placementIs, Bool.or_eq_true, Bool.and_eq_true, decide_eq_true_eq] at h
  obtain ⟨hWrap, hAny⟩ := h.resolve_left (Nat.not_le.mpr hBig)
  refine ⟨hWrap, fun fuel' p hp => ?_⟩
  cases hPlace : place fuel s.mm.mappedHeap (s.mem d) (reqSize size) with
  | none =>
    rw [hPlace] at hAny
    cases hAny
  | some p' =>
    rw [hPlace] at hAny
    exact place_unique hp hPlace ▸ hAny

/-- Decides `Fits`. -/
def fitsNow (fuel limit : Nat) (s : HeapSystem ι) (x : ι × Call) : Bool :=
  s.placementIs fuel (fun m size p => chunkAddress m p + reqSize size ≤ limit) x.1 x.2

theorem fits_of_fitsNow {fuel limit : Nat} {s : HeapSystem ι} {x : ι × Call}
    (h : s.fitsNow fuel limit x = true) : s.Fits limit x.1 x.2 := by
  obtain ⟨d, c⟩ := x
  cases c with
  | malloc size =>
    intro hBig
    obtain ⟨hWrap, hAll⟩ := placement_of_is h hBig
    exact ⟨hWrap, fun fuel' p hp => of_decide_eq_true (hAll fuel' p hp)⟩
  | free ptr => trivial
  | store a v => trivial

/-- Decides `Placeable`. -/
def placeableNow (fuel : Nat) (s : HeapSystem ι) (x : ι × Call) : Bool :=
  s.placementIs fuel (fun m size p => SafePlace m size p) x.1 x.2

theorem placeable_of_placeableNow {fuel : Nat} {s : HeapSystem ι} {x : ι × Call}
    (h : s.placeableNow fuel x = true) : s.Placeable x.1 x.2 := by
  obtain ⟨d, c⟩ := x
  cases c with
  | malloc size =>
    intro hBig fuel' p hp
    exact of_decide_eq_true ((placement_of_is h hBig).2 fuel' p hp)
  | free ptr => trivial
  | store a v => trivial

/-- The walk along `next` comes to `c`. -/
def OnWalk (s : HeapSystem ι) (d : ι) (c : Nat) : Prop :=
  Relation.ReflTransGen (Forward (next (s.mem d))) s.mm.mappedHeap.bigChunks c

/-! ## Steps -/

variable [DecidableEq ι]

def liveIn (s : HeapSystem ι) (d : ι) : List Block := blocksIn s.live d

/-- A call made while the space `d` is loaded. -/
def call (fuel : Nat) (s : HeapSystem ι) (d : ι) : Call → Option (HeapSystem ι)
  | .malloc size =>
    (malloc fuel s.mm (s.mem d) size).map fun r =>
      { mm := r.2.1
        mem := Function.update s.mem d r.2.2
        live := if r.1 = 0 then s.live else (d, ⟨r.1, size⟩) :: s.live }
  | .free ptr =>
    let r := free s.mm (s.mem d) ptr
    some
      { mm := r.1
        mem := Function.update s.mem d r.2
        live := s.live.filter fun e => ¬ (e.1 = d ∧ e.2.ptr = ptr) }
  | .store a v => some { s with mem := Function.update s.mem d (store8 (s.mem d) a v) }

/-- A program frees only pointers that it still holds and writes only to its blocks. -/
def Legal (s : HeapSystem ι) (d : ι) : Call → Prop
  | .malloc size => size < 4294967296
  | .free ptr => ∃ b ∈ s.liveIn d, b.ptr = ptr
  | .store a _ => ∃ b ∈ s.liveIn d, b.ptr ≤ a ∧ a < b.ptr + b.size

instance (s : HeapSystem ι) (d : ι) : (c : Call) → Decidable (s.Legal d c)
  | .malloc size => inferInstanceAs (Decidable (size < 4294967296))
  | .free ptr => inferInstanceAs (Decidable (∃ b ∈ s.liveIn d, b.ptr = ptr))
  | .store a _ =>
    inferInstanceAs (Decidable (∃ b ∈ s.liveIn d, b.ptr ≤ a ∧ a < b.ptr + b.size))

/-- The steps of the system: a legal call that returns. -/
def Step (s : HeapSystem ι) (x : ι × Call) (t : HeapSystem ι) : Prop :=
  s.Legal x.1 x.2 ∧ ∃ fuel, s.call fuel x.1 x.2 = some t

/-- The state after `MemoryManager::Initialize`; what the frames of the heap hold is unknown. -/
def boot (mm : MemoryManager) (mem : ι → Memory) : HeapSystem ι := ⟨mm, mem, []⟩

/-- The heap is safe in the space `d`: live blocks do not overlap, and none of them overlaps a
header that the walk from `big_chunks` comes to. -/
structure Safe (s : HeapSystem ι) (d : ι) : Prop where
  disjoint : (s.liveIn d).Pairwise fun b b' =>
    b.ptr + b.size ≤ b'.ptr ∨ b'.ptr + b'.size ≤ b.ptr
  apart : ∀ b ∈ s.liveIn d, ∀ c,
    Relation.ReflTransGen (Forward (next (s.mem d))) s.mm.mappedHeap.bigChunks c →
      b.ptr + b.size ≤ c ∨ c + 13 ≤ b.ptr

/-! ## Running a list of calls -/

/-- Make the calls one after the other, as long as each is legal and passes `ok`. -/
def exec (fuel : Nat) (ok : HeapSystem ι → ι × Call → Bool) (s : HeapSystem ι) :
    List (ι × Call) → Option (HeapSystem ι)
  | [] => some s
  | x :: xs =>
    if s.Legal x.1 x.2 ∧ ok s x then (s.call fuel x.1 x.2).bind fun t => exec fuel ok t xs
    else none

theorem run_of_exec {fuel : Nat} {ok : HeapSystem ι → ι × Call → Bool}
    {cond : HeapSystem ι → ι × Call → Prop} (hOk : ∀ s x, ok s x = true → cond s x)
    {s t : HeapSystem ι} {xs : List (ι × Call)} (hExec : exec fuel ok s xs = some t) :
    Run (Guarded Step cond) s xs t := by
  induction xs generalizing s with
  | nil =>
    cases hExec
    exact .refl
  | cons x xs ih =>
    rw [exec] at hExec
    split at hExec
    · rename_i hNow
      obtain ⟨u, hCall, hRest⟩ := Option.bind_eq_some_iff.mp hExec
      exact .cons ⟨hOk s x hNow.2, hNow.1, fuel, hCall⟩ (ih hRest)
    · cases hExec

end HeapSystem

end Juos.Kmm
