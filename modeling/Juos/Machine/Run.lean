import Mathlib.Tactic.Common

/-!
# Runs of a labelled step relation

`Run step s xs t` says that the labels `xs`, taken in order from `s`, can lead to `t`. A run is
built at its end, so an induction over it sees the last step. `Run.invariant` is the induction
rule every safety result uses, and `Guarded` restricts a step relation to the steps whose
label meets a condition in the state before it. `Run.project` follows the labels of one component
of a system where that component is alone. `Throughout` says that a condition is met at every label
of a run, and `Throughout.iff` compares two conditions of this kind.
-/

namespace Machine

universe u v w

variable {σ : Type u} {α : Type v}

inductive Run (step : σ → α → σ → Prop) (s : σ) : List α → σ → Prop
  | refl : Run step s [] s
  | tail {xs : List α} {x : α} {t t' : σ} (prior : Run step s xs t) (last : step t x t') :
      Run step s (xs ++ [x]) t'

/-- The steps of `step` whose label satisfies `cond` in the state it is taken from. -/
def Guarded (step : σ → α → σ → Prop) (cond : σ → α → Prop) (s : σ) (x : α) (t : σ) : Prop :=
  cond s x ∧ step s x t

namespace Run

variable {step step' : σ → α → σ → Prop} {s t : σ} {xs : List α}

/-- What holds at the start and is preserved by every step holds at the end of every run. -/
theorem invariant {I : σ → Prop} (hInit : I s)
    (hStep : ∀ t x t', I t → step t x t' → I t') (h : Run step s xs t) : I t := by
  induction h with
  | refl => exact hInit
  | tail prior last ih => exact hStep _ _ _ ih last

theorem mono (hSub : ∀ t x t', step t x t' → step' t x t') (h : Run step s xs t) :
    Run step' s xs t := by
  induction h with
  | refl => exact .refl
  | tail prior last ih => exact .tail ih (hSub _ _ _ last)

theorem of_guarded {cond : σ → α → Prop} (h : Run (Guarded step cond) s xs t) :
    Run step s xs t :=
  h.mono fun _ _ _ hLast => hLast.2

theorem single {x : α} (h : step s x t) : Run step s [x] t := .tail .refl h

theorem cons {x : α} {s' : σ} (hFirst : step s x s') (h : Run step s' xs t) :
    Run step s (x :: xs) t := by
  induction h with
  | refl => exact single hFirst
  | tail prior last ih => exact .tail ih last

theorem eq_of_nil (h : Run step s [] t) : t = s := by
  generalize hLabels : ([] : List α) = zs at h
  cases h with
  | refl => rfl
  | tail => simp at hLabels

/-- A run of `xs ++ ys` passes through a state after `xs`. -/
theorem split {ys : List α} (h : Run step s (xs ++ ys) t) :
    ∃ m, Run step s xs m ∧ Run step m ys t := by
  generalize hLabels : xs ++ ys = zs at h
  induction h generalizing ys with
  | refl =>
    obtain ⟨rfl, rfl⟩ := List.append_eq_nil_iff.mp hLabels
    exact ⟨s, .refl, .refl⟩
  | @tail zs z u u' prior last ih =>
    rcases List.eq_nil_or_concat ys with rfl | ⟨ys, y, rfl⟩
    · rw [List.append_nil] at hLabels
      exact ⟨u', hLabels ▸ .tail prior last, .refl⟩
    · rw [List.concat_eq_append, ← List.append_assoc] at hLabels
      obtain ⟨hZs, hz⟩ := List.append_inj' hLabels rfl
      obtain ⟨m, hFirst, hRest⟩ := ih hZs
      refine ⟨m, hFirst, ?_⟩
      rw [List.concat_eq_append, hz]
      exact .tail hRest last

theorem of_append {x : α} (h : Run step s (xs ++ [x]) t) :
    ∃ m, Run step s xs m ∧ step m x t := by
  generalize hLabels : xs ++ [x] = zs at h
  cases h with
  | refl => simp at hLabels
  | tail prior last =>
    obtain ⟨rfl, hx⟩ := List.append_inj' hLabels rfl
    cases hx
    exact ⟨_, prior, last⟩

theorem of_cons {x : α} (h : Run step s (x :: xs) t) : ∃ m, step s x m ∧ Run step m xs t := by
  obtain ⟨m, hFirst, hRest⟩ := (show Run step s ([x] ++ xs) t from h).split
  obtain ⟨s', hNone, hStep⟩ := (show Run step s ([] ++ [x]) m from hFirst).of_append
  rw [hNone.eq_of_nil] at hStep
  exact ⟨m, hStep, hRest⟩

/-- Taking the labels one after the other with a function that makes the steps. -/
theorem of_foldlM {f : σ → α → Option σ} (hStep : ∀ s x t, f s x = some t → step s x t)
    (h : xs.foldlM f s = some t) : Run step s xs t := by
  induction xs generalizing s with
  | nil =>
    cases h
    exact .refl
  | cons x xs ih =>
    rw [List.foldlM_cons] at h
    obtain ⟨s', hFirst, hRest⟩ := Option.bind_eq_some_iff.mp h
    exact .cons (hStep _ _ _ hFirst) (ih hRest)

end Run

/-- One component of a system on its own: `own` selects its labels, and `R` relates the system to
what takes these labels only. -/
theorem Run.project {τ : Type w} {step : σ → α → σ → Prop} {step' : τ → α → τ → Prop}
    {R : σ → τ → Prop} {own : α → Bool} {s t : σ} {s' : τ} {xs : List α} (hInit : R s s')
    (hOwn : ∀ t x t' u, own x = true → R t u → step t x t' →
      (∃ u', step' u x u') ∧ ∀ u', step' u x u' → R t' u')
    (hOther : ∀ t x t' u, own x = false → R t u → step t x t' → R t' u)
    (h : Run step s xs t) :
    (∃ u, Run step' s' (xs.filter own) u) ∧ ∀ u, Run step' s' (xs.filter own) u → R t u := by
  induction h with
  | refl =>
    refine ⟨⟨s', .refl⟩, fun u hRun => ?_⟩
    generalize hNone : [].filter own = ys at hRun
    cases hRun with
    | refl => exact hInit
    | tail => simp at hNone
  | @tail xs x t t' prior last ih =>
    obtain ⟨⟨u, hRun⟩, hAll⟩ := ih
    rw [List.filter_append]
    cases hx : own x with
    | true =>
      rw [List.filter_cons_of_pos hx, List.filter_nil]
      obtain ⟨u', hStep⟩ := (hOwn t x t' u hx (hAll u hRun) last).1
      refine ⟨⟨u', .tail hRun hStep⟩, fun v hRun' => ?_⟩
      obtain ⟨m, hPrior, hLast⟩ := hRun'.of_append
      exact (hOwn t x t' m hx (hAll m hPrior) last).2 v hLast
    | false =>
      rw [List.filter_cons_of_neg (by rw [hx]; decide), List.filter_nil, List.append_nil]
      exact ⟨⟨u, hRun⟩, fun v hRun' => hOther t x t' v hx (hAll v hRun') last⟩

/-- Every label of `xs` meets `P` in each state in which a run comes to it. -/
def Throughout (step : σ → α → σ → Prop) (P : σ → α → Prop) (s : σ) (xs : List α) : Prop :=
  ∀ pre x post t, xs = pre ++ x :: post → Run step s pre t → P t x

namespace Throughout

variable {step : σ → α → σ → Prop} {P Q : σ → α → Prop} {I : σ → Prop} {s t : σ} {xs pre : List α}

/-- What the labels that meet `P` preserve holds as far as they all do. -/
theorem invariant (h : Throughout step P s xs) (hInit : I s)
    (hStep : ∀ t x t', I t → P t x → step t x t' → I t') (hRun : Run step s pre t) {post : List α}
    (hPre : xs = pre ++ post) : I t := by
  induction hRun generalizing post with
  | refl => exact hInit
  | @tail pre x u u' prior last ih =>
    rw [List.append_assoc] at hPre
    exact hStep _ _ _ (ih hPre) (h pre x post u hPre prior) last

/-- Two conditions that agree as long as an invariant holds, which they keep. -/
theorem mono (h : Throughout step P s xs) (hInit : I s)
    (hStep : ∀ t x t', I t → P t x → step t x t' → I t') (hSub : ∀ t x, I t → P t x → Q t x) :
    Throughout step Q s xs := by
  intro pre x post t hEq hRun
  exact hSub t x (h.invariant hInit hStep hRun hEq) (h pre x post t hEq hRun)

theorem iff (hInit : I s) (hIff : ∀ t x, I t → (P t x ↔ Q t x))
    (hStep : ∀ t x t', I t → Q t x → step t x t' → I t') :
    Throughout step P s xs ↔ Throughout step Q s xs := by
  constructor
  · intro h
    refine h.mono hInit ?_ ?_
    · intro t x t' hI hP
      exact hStep t x t' hI ((hIff t x hI).mp hP)
    · intro t x hI
      exact (hIff t x hI).mp
  · intro h
    refine h.mono hInit hStep ?_
    intro t x hI
    exact (hIff t x hI).mpr

/-- A single label is met at the start and nowhere else. -/
theorem singleton_iff {x : α} : Throughout step P s [x] ↔ P s x := by
  constructor
  · intro h
    exact h [] x [] s rfl .refl
  · intro hP pre y post t hEq hRun
    obtain ⟨rfl, hOne⟩ | ⟨-, hNil⟩ := List.singleton_eq_append_iff.mp hEq
    · cases hOne
      rwa [hRun.eq_of_nil]
    · cases hNil

end Throughout

/-- A fold that may fail preserves what each of its steps preserves. -/
theorem foldlM_invariant {β : Type u} {f : β → α → Option β} {I : β → Prop} {l : List α}
    {b c : β} (hStep : ∀ b x c, x ∈ l → I b → f b x = some c → I c) (h : l.foldlM f b = some c)
    (hb : I b) : I c := by
  induction l generalizing b with
  | nil =>
    cases h
    exact hb
  | cons x l ih =>
    rw [List.foldlM_cons] at h
    obtain ⟨b', hFirst, hRest⟩ := Option.bind_eq_some_iff.mp h
    exact ih (fun b x c hx => hStep b x c (List.mem_cons_of_mem _ hx)) hRest
      (hStep _ _ _ List.mem_cons_self hb hFirst)

end Machine
