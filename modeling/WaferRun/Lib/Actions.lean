import Mathlib.Logic.Relation

/-!
# Systems that move by actions

A concurrent component is modelled by a state type, a type of actions and a partial step function:
`step s a = none` when the action `a` is not enabled in `s`. An interleaving of any number of
parties is then a list of actions, and what the component guarantees is a statement about every
state such a list reaches.

The step function is a function rather than a relation so that a concrete run can be evaluated.
Its runs are lists of actions, which keeps the schedule itself available to statements that compare
two schedules of the same parties.
-/

namespace Actions

variable {σ α : Type*}

def run (step : σ → α → Option σ) : σ → List α → Option σ
  | s, [] => some s
  | s, a :: as => (step s a).bind fun t ↦ run step t as

/-- The states some run from `init` ends in. -/
def Reachable (step : σ → α → Option σ) (init s : σ) : Prop :=
  ∃ as, run step init as = some s

variable {step : σ → α → Option σ} {init s t : σ}

@[simp] theorem run_nil (s : σ) : run step s [] = some s := rfl

theorem run_cons_eq_some {a : α} {as : List α} :
    run step s (a :: as) = some t ↔ ∃ u, step s a = some u ∧ run step u as = some t :=
  Option.bind_eq_some_iff

theorem run_append (s : σ) (as bs : List α) :
    run step s (as ++ bs) = (run step s as).bind fun t ↦ run step t bs := by
  induction as generalizing s with
  | nil => rfl
  | cons a as ih =>
    rw [List.cons_append, run, run, Option.bind_assoc]
    congr 1
    funext t
    exact ih t

theorem run_trans {u : σ} {as bs : List α} (h : run step s as = some t)
    (h' : run step t bs = some u) : run step s (as ++ bs) = some u := by
  rw [run_append, h]
  exact h'

theorem run_invariant_of_forall {I : σ → Prop} {P : α → Prop}
    (hstep : ∀ s a t, I s → P a → step s a = some t → I t) {as : List α} (hs : I s)
    (has : ∀ a ∈ as, P a) (h : run step s as = some t) : I t := by
  induction as generalizing s with
  | nil =>
    rw [run_nil, Option.some.injEq] at h
    exact h ▸ hs
  | cons a as ih =>
    rw [List.forall_mem_cons] at has
    obtain ⟨u, hu, h⟩ := run_cons_eq_some.mp h
    exact ih (hstep _ _ _ hs has.1 hu) has.2 h

theorem run_invariant {I : σ → Prop} (hstep : ∀ s a t, I s → step s a = some t → I t)
    {as : List α} (hs : I s) (h : run step s as = some t) : I t :=
  run_invariant_of_forall (P := fun _ ↦ True) (fun s a t hs _ ↦ hstep s a t hs) hs
    (fun _ _ ↦ trivial) h

theorem Reachable.invariant {I : σ → Prop} (h : Reachable step init s) (h0 : I init)
    (hstep : ∀ s a t, I s → step s a = some t → I t) : I s := by
  obtain ⟨as, h⟩ := h
  exact run_invariant hstep h0 h

/-! ## Runs under a condition -/

/-- Every step of the run meets `P`, a condition on the state the step is taken in and its action. -/
def Along (step : σ → α → Option σ) (P : σ → α → Prop) : σ → List α → Prop
  | _, [] => True
  | s, a :: as => P s a ∧ ∀ t, step s a = some t → Along step P t as

theorem Along.invariant {P : σ → α → Prop} {I : σ → Prop}
    (hstep : ∀ s a t, I s → P s a → step s a = some t → I t) {as : List α} (hs : I s)
    (has : Along step P s as) (h : run step s as = some t) : I t := by
  induction as generalizing s with
  | nil =>
    rw [run_nil, Option.some.injEq] at h
    exact h ▸ hs
  | cons a as ih =>
    obtain ⟨u, hu, h⟩ := run_cons_eq_some.mp h
    exact ih (hstep _ _ _ hs has.1 hu) (has.2 u hu) h

end Actions
