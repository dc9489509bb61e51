import Mathlib.Data.List.Basic
import Mathlib.Data.List.Induction
import Mathlib.Data.List.Nodup

/-!
# The table of destructors

`__cxa_atexit` and `__cxa_finalize` of `icxxabi.cpp`. The code that the compiler emits for a static
object registers its destructor, and a finalization calls those that are registered, the newest
first. With a function it takes the entries of that function off the table by setting their pointer
to zero. Without one it calls what is on the table and leaves it there, although its comment counts
on entries being unset once they are called.

`Ledger` is what the two are for: an entry is destroyed once. `once_iff` says which calls keep to
it. The destructors themselves do not call the two functions.
-/

namespace Juos.Runtime

abbrev atexitMaxFuncs : Nat := 128

structure AtexitFuncEntry where
  destructorFunc : Nat
  objPtr : Nat
  dsoHandle : Nat
  deriving DecidableEq, Repr

structure AtexitTable where
  /-- `__atexit_funcs` -/
  funcs : Nat → AtexitFuncEntry
  /-- `__atexit_func_count` -/
  funcCount : Nat
  funcCount_le : funcCount ≤ atexitMaxFuncs

def AtexitTable.empty : AtexitTable := ⟨fun _ => ⟨0, 0, 0⟩, 0, Nat.zero_le _⟩

def cxaAtexit (f objptr dso : Nat) (t : AtexitTable) : Int × AtexitTable :=
  if h : t.funcCount ≥ atexitMaxFuncs then (-1, t)
  else
    (0, ⟨Function.update t.funcs t.funcCount ⟨f, objptr, dso⟩, t.funcCount + 1,
      Nat.succ_le_of_lt (Nat.lt_of_not_le h)⟩)

/-- The call of an entry, with its place in the table. -/
structure Destruction where
  place : Nat
  destructorFunc : Nat
  objPtr : Nat
  deriving DecidableEq, Repr

/-- The first loop of `__cxa_finalize`, from `i` down. -/
def finalizeAll (funcs : Nat → AtexitFuncEntry) : Nat → List Destruction
  | 0 => []
  | i + 1 =>
    if (funcs i).destructorFunc ≠ 0 then
      ⟨i, (funcs i).destructorFunc, (funcs i).objPtr⟩ :: finalizeAll funcs i
    else finalizeAll funcs i

/-- The second loop, which unsets what it calls. -/
def finalizeFunc (f : Nat) :
    Nat → (Nat → AtexitFuncEntry) → List Destruction × (Nat → AtexitFuncEntry)
  | 0, funcs => ([], funcs)
  | i + 1, funcs =>
    if (funcs i).destructorFunc = f then
      let r := finalizeFunc f i (Function.update funcs i { funcs i with destructorFunc := 0 })
      (⟨i, (funcs i).destructorFunc, (funcs i).objPtr⟩ :: r.1, r.2)
    else finalizeFunc f i funcs

def cxaFinalize (f : Nat) (t : AtexitTable) : List Destruction × AtexitTable :=
  if f = 0 then (finalizeAll t.funcs t.funcCount, t)
  else
    let r := finalizeFunc f t.funcCount t.funcs
    (r.1, { t with funcs := r.2 })

inductive ExitCall where
  | atexit (f objptr dso : Nat)
  | finalize (f : Nat)
  deriving DecidableEq, Repr

structure Exit where
  table : AtexitTable
  /-- every call of a destructor, in order -/
  called : List Destruction

def Exit.call (s : Exit) : ExitCall → Exit
  | .atexit f objptr dso => { s with table := (cxaAtexit f objptr dso s.table).2 }
  | .finalize f =>
    let r := cxaFinalize f s.table
    ⟨r.2, s.called ++ r.1⟩

def exitRun (es : List ExitCall) : Exit := es.foldl Exit.call ⟨.empty, []⟩

/-! ## What the two functions are for -/

/-- A finalization with `g` is meant for the entry. -/
def Names (g : Nat) (r : Destruction) : Prop := g = 0 ∨ g = r.destructorFunc

instance (g : Nat) (r : Destruction) : Decidable (Names g r) :=
  inferInstanceAs (Decidable (g = 0 ∨ g = r.destructorFunc))

structure Ledger where
  pending : List Destruction
  /-- the places that are taken, also by those that were destroyed -/
  taken : Nat
  destroyed : List Destruction

/-- A registration without a function takes a place only. -/
def Ledger.call (l : Ledger) : ExitCall → Ledger
  | .atexit f objptr _ =>
    { l with
      pending :=
        if l.taken < atexitMaxFuncs ∧ f ≠ 0 then l.pending ++ [⟨l.taken, f, objptr⟩] else l.pending
      taken := min (l.taken + 1) atexitMaxFuncs }
  | .finalize g =>
    { l with
      pending := l.pending.filter fun r => ¬ Names g r
      destroyed := l.destroyed ++ (l.pending.filter fun r => Names g r).reverse }

def ledger (es : List ExitCall) : Ledger := es.foldl Ledger.call ⟨[], 0, []⟩

/-- After a finalization without a function, none comes that is meant for an entry that was pending
then. -/
def Settled (es : List ExitCall) : Prop :=
  ∀ pre mid g post, es = pre ++ .finalize 0 :: (mid ++ .finalize g :: post) →
    ∀ r ∈ (ledger pre).pending, ¬ Names g r

/-! ## The entries of the table -/

def registered (funcs : Nat → AtexitFuncEntry) (i : Nat) : Option Destruction :=
  if (funcs i).destructorFunc = 0 then none
  else some ⟨i, (funcs i).destructorFunc, (funcs i).objPtr⟩

/-- The entries below `n` that are set, from the oldest on. -/
def entries (funcs : Nat → AtexitFuncEntry) (n : Nat) : List Destruction :=
  (List.range n).filterMap (registered funcs)

/-- What a finalization without a function would call. -/
def AtexitTable.live (t : AtexitTable) : List Destruction := entries t.funcs t.funcCount

section Entries

variable {funcs funcs' : Nat → AtexitFuncEntry} {n f : Nat} {t : AtexitTable}

theorem entries_succ : entries funcs (n + 1) = entries funcs n ++ (registered funcs n).toList := by
  rw [entries, List.range_succ, List.filterMap_append]
  cases h : registered funcs n <;> simp [entries, h]

theorem entries_congr (h : ∀ i < n, funcs i = funcs' i) : entries funcs n = entries funcs' n := by
  apply List.filterMap_congr
  intro i hi
  rw [registered, registered, h i (List.mem_range.mp hi)]

theorem entries_update {e : AtexitFuncEntry} :
    entries (Function.update funcs n e) n = entries funcs n :=
  entries_congr fun _ hi => Function.update_of_ne (Nat.ne_of_lt hi) _ _

theorem entries_write {e : AtexitFuncEntry} :
    entries (Function.update funcs n e) (n + 1) =
      entries funcs n ++
        if e.destructorFunc = 0 then [] else [⟨n, e.destructorFunc, e.objPtr⟩] := by
  rw [entries_succ, entries_update, registered, Function.update_self]
  split_ifs <;> rfl

theorem finalizeAll_eq : finalizeAll funcs n = (entries funcs n).reverse := by
  induction n with
  | zero => rfl
  | succ n ih =>
    rw [finalizeAll, entries_succ, List.reverse_append, ← ih, registered]
    by_cases h : (funcs n).destructorFunc = 0 <;> simp [h]

theorem finalizeFunc_spec (hf : f ≠ 0) : ∀ funcs : Nat → AtexitFuncEntry,
    (finalizeFunc f n funcs).1 =
        ((entries funcs n).filter fun r => r.destructorFunc = f).reverse ∧
      ∀ i, (finalizeFunc f n funcs).2 i =
        if i < n ∧ (funcs i).destructorFunc = f then { funcs i with destructorFunc := 0 }
        else funcs i := by
  induction n with
  | zero => exact fun funcs => ⟨rfl, fun i => by rw [if_neg (by omega)]; rfl⟩
  | succ n ih =>
    intro funcs
    rw [entries_succ, List.filter_append, List.reverse_append, finalizeFunc, registered]
    by_cases h : (funcs n).destructorFunc = f
    · obtain ⟨hCalls, hFuncs⟩ := ih (Function.update funcs n { funcs n with destructorFunc := 0 })
      rw [if_pos h, if_neg (h ▸ hf)]
      dsimp only
      rw [hCalls, entries_update]
      refine ⟨by simp [h], fun i => (hFuncs i).trans ?_⟩
      rcases Nat.lt_trichotomy i n with hLt | rfl | hGt
      · rw [Function.update_of_ne (Nat.ne_of_lt hLt)]
        simp [hLt, Nat.lt_succ_of_lt hLt]
      · simp [h]
      · rw [Function.update_of_ne (Nat.ne_of_gt hGt), if_neg (by omega), if_neg (by omega)]
    · obtain ⟨hCalls, hFuncs⟩ := ih funcs
      rw [if_neg h]
      refine ⟨?_, fun i => (hFuncs i).trans ?_⟩
      · by_cases hZero : (funcs n).destructorFunc = 0 <;> simp [hZero, h, hCalls]
      · have hSame : i < n ∧ (funcs i).destructorFunc = f ↔
            i < n + 1 ∧ (funcs i).destructorFunc = f := by
          refine and_congr_left fun hi => ⟨Nat.lt_succ_of_lt, fun hLt => ?_⟩
          exact Nat.lt_of_le_of_ne (Nat.le_of_lt_succ hLt) fun hEq => h (hEq ▸ hi)
        rw [if_congr hSame rfl rfl]

/-- What a finalization calls, and what it leaves on the table. -/
theorem cxaFinalize_spec :
    (cxaFinalize f t).1 = (t.live.filter fun r => Names f r).reverse ∧
      (cxaFinalize f t).2.funcCount = t.funcCount ∧
      (cxaFinalize f t).2.live =
        if f = 0 then t.live else t.live.filter fun r => ¬ Names f r := by
  rw [cxaFinalize]
  by_cases hf : f = 0
  · rw [if_pos hf, if_pos hf, finalizeAll_eq]
    refine ⟨?_, rfl, rfl⟩
    rw [List.filter_eq_self.mpr fun r _ => decide_eq_true (.inl hf)]
    rfl
  · obtain ⟨hCalls, hFuncs⟩ := finalizeFunc_spec hf t.funcs
    rw [if_neg hf, if_neg hf]
    dsimp only
    have hNames : ∀ r : Destruction, Names f r ↔ r.destructorFunc = f := fun r =>
      (or_iff_right hf).trans eq_comm
    refine ⟨?_, rfl, ?_⟩
    · simp only [hNames]
      exact hCalls
    · rw [AtexitTable.live, AtexitTable.live, entries, entries, List.filter_filterMap]
      apply List.filterMap_congr
      intro i hi
      simp only [hNames]
      by_cases h : (t.funcs i).destructorFunc = f
      · have hUnset := (hFuncs i).trans (if_pos ⟨List.mem_range.mp hi, h⟩)
        simp [registered, hUnset, h, hf, Option.filter_some]
      · have hSame := (hFuncs i).trans (if_neg fun hBoth => h hBoth.2)
        rw [registered, registered, hSame]
        by_cases hZero : (t.funcs i).destructorFunc = 0 <;> simp [h, hZero, Option.filter_some]

theorem live_cxaAtexit {f objptr dso : Nat} :
    (cxaAtexit f objptr dso t).2.live =
      if t.funcCount < atexitMaxFuncs ∧ f ≠ 0 then t.live ++ [⟨t.funcCount, f, objptr⟩]
      else t.live := by
  rw [cxaAtexit]
  split_ifs with hFull hNew hNew
  · exact absurd hNew.1 (Nat.not_lt_of_le hFull)
  · rfl
  · exact entries_write.trans (by rw [if_neg hNew.2]; rfl)
  · have hZero : f = 0 := by
      by_contra hf
      exact hNew ⟨Nat.lt_of_not_le hFull, hf⟩
    exact entries_write.trans (by rw [if_pos hZero, List.append_nil]; rfl)

end Entries

/-! ## Runs -/

section Runs

variable {es ms : List ExitCall} {e : ExitCall} {s : Exit} {r : Destruction} {g : Nat}

theorem exitRun_append : exitRun (es ++ ms) = ms.foldl Exit.call (exitRun es) :=
  List.foldl_append

theorem exitRun_concat : exitRun (es ++ [e]) = (exitRun es).call e := exitRun_append

theorem ledger_concat : ledger (es ++ [e]) = (ledger es).call e := List.foldl_append

theorem funcCount_eq (es : List ExitCall) :
    (exitRun es).table.funcCount = (ledger es).taken := by
  induction es using List.reverseRecOn with
  | nil => rfl
  | append_singleton es e ih =>
    rw [exitRun_concat, ledger_concat]
    cases e with
    | atexit f objptr dso =>
      have hLe := (exitRun es).table.funcCount_le
      simp only [Exit.call, Ledger.call, cxaAtexit]
      split_ifs with hFull <;> dsimp only <;> omega
    | finalize g => exact cxaFinalize_spec.2.1.trans ih

/-- A registration is refused from the 129th on, whatever was finalized before. -/
theorem refused_iff {f objptr dso : Nat} :
    (cxaAtexit f objptr dso (exitRun es).table).1 = -1 ↔
      atexitMaxFuncs ≤ es.countP fun e => e matches .atexit .. := by
  have hTaken : (ledger es).taken =
      min atexitMaxFuncs (es.countP fun e => e matches .atexit ..) := by
    induction es using List.reverseRecOn with
    | nil => rfl
    | append_singleton es e ih =>
      rw [ledger_concat, List.countP_append]
      cases e with
      | atexit f objptr dso =>
        simp only [Ledger.call, List.countP_singleton, if_true]
        omega
      | finalize g => exact ih
  rw [cxaAtexit]
  split_ifs with hFull
  · exact iff_of_true rfl (by rw [funcCount_eq, hTaken] at hFull; omega)
  · exact iff_of_false (by decide) (by rw [funcCount_eq, hTaken] at hFull; omega)

theorem mem_live_call (hr : r ∈ s.table.live) (hNames : ∀ g, e = .finalize g → ¬ Names g r) :
    r ∈ (s.call e).table.live := by
  cases e with
  | atexit f objptr dso =>
    rw [Exit.call, live_cxaAtexit]
    split_ifs
    · exact List.mem_append_left _ hr
    · exact hr
  | finalize g =>
    refine cxaFinalize_spec.2.2 ▸ ?_
    split_ifs
    · exact hr
    · exact List.mem_filter.mpr ⟨hr, decide_eq_true (hNames g rfl)⟩

theorem mem_live_of_pending (h : r ∈ (ledger es).pending) : r ∈ (exitRun es).table.live := by
  induction es using List.reverseRecOn with
  | nil => cases h
  | append_singleton es e ih =>
    rw [exitRun_concat]
    rw [ledger_concat] at h
    cases e with
    | atexit f objptr dso =>
      rw [Exit.call, live_cxaAtexit, funcCount_eq]
      rw [Ledger.call] at h
      split_ifs at h ⊢
      · exact List.mem_append.mpr ((List.mem_append.mp h).imp_left ih)
      · exact ih h
    | finalize g =>
      obtain ⟨hPending, hOther⟩ := List.mem_filter.mp h
      refine mem_live_call (ih hPending) fun g' hg => ?_
      cases hg
      exact of_decide_eq_true hOther

/-- What is called is only added to. -/
theorem called_foldl (s : Exit) (ms : List ExitCall) :
    ∃ more, (ms.foldl Exit.call s).called = s.called ++ more := by
  induction ms generalizing s with
  | nil => exact ⟨[], (List.append_nil _).symm⟩
  | cons e ms ih =>
    obtain ⟨more, hMore⟩ := ih (s := s.call e)
    cases e with
    | atexit f objptr dso => exact ⟨more, hMore⟩
    | finalize g => exact ⟨_, hMore.trans (List.append_assoc _ _ _)⟩

/-- An entry on the table is called by the next finalization that is meant for it. -/
theorem called_of_live (hr : r ∈ s.table.live) (hg : .finalize g ∈ ms) (hNames : Names g r) :
    ∃ more, (ms.foldl Exit.call s).called = s.called ++ more ∧ r ∈ more := by
  induction ms generalizing s with
  | nil => cases hg
  | cons e ms ih =>
    by_cases hNow : ∃ g, e = .finalize g ∧ Names g r
    · obtain ⟨g, rfl, hNames⟩ := hNow
      obtain ⟨more, hMore⟩ := called_foldl (s.call (.finalize g)) ms
      refine ⟨_, hMore.trans (List.append_assoc _ _ _), List.mem_append_left _ ?_⟩
      rw [cxaFinalize_spec.1]
      exact List.mem_reverse.mpr (List.mem_filter.mpr ⟨hr, decide_eq_true hNames⟩)
    · have hLive := mem_live_call hr fun g hg hN => hNow ⟨g, hg, hN⟩
      have hRest : .finalize g ∈ ms := by
        rcases List.mem_cons.mp hg with hHead | hTail
        · exact absurd ⟨g, hHead.symm, hNames⟩ hNow
        · exact hTail
      obtain ⟨more, hMore, hMem⟩ := ih hLive hRest
      cases e with
      | atexit f objptr dso => exact ⟨more, hMore, hMem⟩
      | finalize g =>
        exact ⟨_, hMore.trans (List.append_assoc _ _ _), List.mem_append_right _ hMem⟩

/-- What was destroyed and what is pending has different places, which are taken. -/
theorem ledger_places :
    ((ledger es).destroyed ++ (ledger es).pending).Nodup ∧
      ∀ r ∈ (ledger es).destroyed ++ (ledger es).pending, r.place < (ledger es).taken := by
  induction es using List.reverseRecOn with
  | nil => exact ⟨List.nodup_nil, fun r hr => absurd hr List.not_mem_nil⟩
  | append_singleton es e ih =>
    obtain ⟨hNodup, hPlace⟩ := ih
    rw [ledger_concat]
    cases e with
    | atexit f objptr dso =>
      rw [Ledger.call]
      dsimp only
      split_ifs with hNew
      · rw [← List.append_assoc, Nat.min_eq_left hNew.1]
        refine ⟨List.nodup_append.mpr ⟨hNodup, List.nodup_singleton _, ?_⟩, ?_⟩
        · rintro r hr r' hr' rfl
          rw [List.mem_singleton.mp hr'] at hr
          exact absurd (hPlace _ hr) (Nat.lt_irrefl _)
        · intro r hr
          rcases List.mem_append.mp hr with hOld | hLast
          · exact Nat.lt_succ_of_lt (hPlace r hOld)
          · rw [List.mem_singleton.mp hLast]
            exact Nat.lt_succ_self _
      · refine ⟨hNodup, fun r hr => ?_⟩
        have hLe : (ledger es).taken ≤ atexitMaxFuncs :=
          funcCount_eq es ▸ (exitRun es).table.funcCount_le
        have hLt := hPlace r hr
        omega
    | finalize g =>
      have hPerm : List.Perm
          (((ledger es).call (.finalize g)).destroyed ++ ((ledger es).call (.finalize g)).pending)
          ((ledger es).destroyed ++ (ledger es).pending) := by
        rw [Ledger.call, List.append_assoc]
        refine .append_left _ (((List.reverse_perm _).append_right _).trans ?_)
        simpa using List.filter_append_perm (fun r => Names g r) (ledger es).pending
      exact ⟨hPerm.nodup_iff.mpr hNodup, fun r hr => hPlace r (hPerm.subset hr)⟩

theorem Settled.of_concat (h : Settled (es ++ [e])) : Settled es := fun pre mid g post hEq =>
  h pre mid g (post ++ [e]) (by rw [hEq]; simp)

/-- What was pending at a finalization without a function. -/
def Stale (es : List ExitCall) (r : Destruction) : Prop :=
  r.place < (ledger es).taken ∧
    ∃ pre mid, es = pre ++ .finalize 0 :: mid ∧ r ∈ (ledger pre).pending

theorem Stale.concat (h : Stale es r) : Stale (es ++ [e]) r := by
  obtain ⟨hPlace, pre, mid, rfl, hMem⟩ := h
  refine ⟨?_, pre, mid ++ [e], List.append_assoc _ _ _, hMem⟩
  have hLe : (ledger (pre ++ .finalize 0 :: mid)).taken ≤ atexitMaxFuncs :=
    funcCount_eq (pre ++ _) ▸ (exitRun _).table.funcCount_le
  rw [ledger_concat]
  cases e with
  | atexit f objptr dso => exact Nat.lt_min.mpr ⟨Nat.lt_succ_of_lt hPlace, by omega⟩
  | finalize g => exact hPlace

/-- While the calls are settled the table holds what is pending, and beside it what is stale. -/
theorem called_eq_of_settled (h : Settled es) :
    (exitRun es).called = (ledger es).destroyed ∧ ∃ stale : List Destruction,
      (ledger es).pending = (exitRun es).table.live.filter (fun r => r ∉ stale) ∧
      ∀ r ∈ stale, Stale es r := by
  induction es using List.reverseRecOn with
  | nil => exact ⟨rfl, [], rfl, fun r hr => absurd hr List.not_mem_nil⟩
  | append_singleton es e ih =>
    obtain ⟨hCalled, stale, hPending, hStale⟩ := ih h.of_concat
    rw [exitRun_concat, ledger_concat]
    cases e with
    | atexit f objptr dso =>
      refine ⟨hCalled, stale, ?_, fun r hr => (hStale r hr).concat⟩
      rw [Exit.call, Ledger.call, live_cxaAtexit, funcCount_eq]
      dsimp only
      have hFresh : (⟨(ledger es).taken, f, objptr⟩ : Destruction) ∉ stale := fun hMem =>
        absurd (hStale _ hMem).1 (Nat.lt_irrefl _)
      split_ifs
      · rw [List.filter_append, ← hPending]
        simp [hFresh]
      · exact hPending
    | finalize g =>
      have hSpared : ∀ r ∈ stale, ¬ Names g r := by
        intro r hr
        obtain ⟨-, pre, mid, rfl, hMem⟩ := hStale r hr
        exact h pre mid g [] (List.append_assoc _ _ _) r hMem
      obtain ⟨hCalls, -, hLive⟩ := cxaFinalize_spec (f := g) (t := (exitRun es).table)
      constructor
      · rw [Exit.call, Ledger.call, hCalls, hPending, hCalled]
        dsimp only
        congr 2
        rw [List.filter_filter]
        apply List.filter_congr
        intro r _
        by_cases hr : r ∈ stale
        · simp [hr, hSpared r hr]
        · simp [hr]
      · rw [Exit.call, Ledger.call, hLive]
        dsimp only
        split_ifs with hAll
        · have hSame : (ledger es).pending = (exitRun es).table.live := by
            refine hPending.trans (List.filter_eq_self.mpr fun r _ => decide_eq_true fun hr => ?_)
            exact hSpared r hr (.inl hAll)
          refine ⟨(ledger es).pending, ?_, fun r hr => ?_⟩
          · rw [← hSame, List.filter_eq_nil_iff.mpr, List.filter_eq_nil_iff.mpr]
            · exact fun r hr => by simpa using hr
            · intro r _
              simp only [decide_eq_true_eq, not_not]
              exact .inl hAll
          · refine ⟨?_, es, [], by rw [hAll], hr⟩
            rw [ledger_concat]
            exact ledger_places.2 r (List.mem_append_right _ hr)
        · refine ⟨stale, ?_, fun r hr => (hStale r hr).concat⟩
          rw [hPending, List.filter_filter, List.filter_filter]
          exact List.filter_congr fun r _ => Bool.and_comm _ _

/-- No destructor is called twice for exactly the settled calls, and then what is called is what the
ledger destroys, in its order. -/
theorem once_iff (es : List ExitCall) :
    ((exitRun es).called.Nodup ↔ Settled es) ∧
      ((exitRun es).called = (ledger es).destroyed ↔ Settled es) := by
  have hOnce : (exitRun es).called.Nodup → Settled es := by
    rintro hNodup pre mid g post rfl r hr hNames
    have hLive := mem_live_of_pending hr
    obtain ⟨more, hMore, hMem⟩ :=
      called_of_live hLive (List.mem_singleton_self (ExitCall.finalize 0)) (.inl rfl)
    have hStays : r ∈ ((exitRun pre).call (.finalize 0)).table.live := by
      rw [Exit.call, cxaFinalize_spec.2.2, if_pos rfl]
      exact hLive
    have hLater : .finalize g ∈ mid ++ .finalize g :: post :=
      List.mem_append_right mid List.mem_cons_self
    obtain ⟨again, hAgain, hTwice⟩ := called_of_live hStays hLater hNames
    rw [exitRun_append, List.foldl_cons, hAgain] at hNodup
    exact List.disjoint_of_nodup_append hNodup (hMore ▸ List.mem_append_right _ hMem) hTwice
  have hDestroyed : (ledger es).destroyed.Nodup := (List.nodup_append.mp ledger_places.1).1
  refine ⟨⟨hOnce, fun h => ?_⟩, fun h => hOnce (h ▸ hDestroyed), fun h => ?_⟩
  · exact (called_eq_of_settled h).1 ▸ hDestroyed
  · exact (called_eq_of_settled h).1

end Runs

example : (exitRun [.atexit 8 4 0, .atexit 9 5 0, .finalize 8, .finalize 0, .finalize 0]).called =
    [⟨0, 8, 4⟩, ⟨1, 9, 5⟩, ⟨1, 9, 5⟩] := by decide +kernel

end Juos.Runtime
