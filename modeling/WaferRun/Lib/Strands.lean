import Mathlib.Data.Nat.Notation
import WaferRun.Lib.Actions

/-!
# Strands: sequential programs with forks

A strand is a program that asks its environment for answers one effect at a time and may fork into
branches that run concurrently. A fork waits for all its branches and goes on with the list of
their results, in the order in which the branches were written.

The environment is a `Handler`: it answers one effect of one branch at a time and may keep state
that all branches share. A schedule says which branch moves next, so a list of positions is an
interleaving, and what holds for every list holds for every interleaving.

## What the file proves

* every strand ends: no schedule is infinite, whatever the answers are (`acc_next`), and a strand
  that has not ended can move (`exists_step`);
* when the answers do not depend on shared state, no interleaving changes the result
  (`Steps.value_eq`).
-/

/-- A sequential program over the effects `E` with answers `A`, whose forks collect results in
`R`. -/
inductive Strand (E : Type) (A : E → Type) (R : Type)
  | done (r : R)
  | perform (e : E) (k : A e → Strand E A R)
  | fork (branches : List (Strand E A R)) (k : List R → Strand E A R)

open List Option

namespace Strand

variable {E : Type} {A : E → Type} {R σ τ C D : Type}

theorem induct {P : Strand E A R → Prop} (hdone : ∀ r, P (done r))
    (hperform : ∀ e k, (∀ a, P (k a)) → P (perform e k))
    (hfork : ∀ bs k, (∀ b ∈ bs, P b) → (∀ rs, P (k rs)) → P (fork bs k)) : ∀ x, P x := by
  refine @Strand.rec E A R P (fun bs ↦ ∀ b ∈ bs, P b) hdone hperform hfork ?_ ?_
  · intro b hb
    exact absurd hb not_mem_nil
  · intro b bs ihb ihbs c hc
    rcases mem_cons.mp hc with rfl | hc
    · exact ihb
    · exact ihbs c hc

/-! ## Running a strand -/

/-- How the environment answers an effect, given its state and a choice. -/
abbrev Handler (E : Type) (A : E → Type) (σ C : Type) := σ → (e : E) → C → Option (A e × σ)

/-- An environment that also keeps what was asked and answered, newest first. -/
def traced (handle : Handler E A σ C) : Handler E A (σ × List (Σ e, A e)) C :=
  fun (s, log) e c ↦ (handle s e c).map fun (a, t) ↦ (a, (t, ⟨e, a⟩ :: log))

def results : List (Strand E A R) → Option (List R)
  | [] => some []
  | done r :: bs => (results bs).map (r :: ·)
  | _ :: _ => none

/-- Let the strand at a position move. The empty position answers an effect, or joins a fork whose
branches have ended; `i :: p` is position `p` of branch `i`. -/
def stepAt (handle : Handler E A σ C) (c : C) :
    List ℕ → σ × Strand E A R → Option (σ × Strand E A R)
  | [], (s, perform e k) => (handle s e c).map fun (a, t) ↦ (t, k a)
  | [], (s, fork bs k) => (results bs).map fun rs ↦ (s, k rs)
  | i :: p, (s, fork bs k) =>
    bs[i]?.bind fun b ↦ (stepAt handle c p (s, b)).map fun (t, b') ↦ (t, fork (bs.set i b') k)
  | _, _ => none

def move (handle : Handler E A σ C) (s : σ × Strand E A R) (a : List ℕ × C) :
    Option (σ × Strand E A R) :=
  stepAt handle a.2 a.1 s

inductive Step (handle : Handler E A σ C) (s : σ) :
    Strand E A R → σ → Strand E A R → Prop
  | perform {t : σ} {e : E} {c : C} {a : A e} (k : A e → Strand E A R)
      (h : handle s e c = some (a, t)) : Step handle s (perform e k) t (k a)
  | branch {t : σ} {b b' : Strand E A R} (l r : List (Strand E A R)) (k : List R → Strand E A R)
      (h : Step handle s b t b') :
      Step handle s (fork (l ++ b :: r) k) t (fork (l ++ b' :: r) k)
  | join (rs : List R) (k : List R → Strand E A R) :
      Step handle s (fork (rs.map done) k) s (k rs)

variable {handle : Handler E A σ C} {s t u : σ} {x y z : Strand E A R}

theorem traced_eq_some {p q : σ × List (Σ e, A e)} {e : E} {c : C} {a : A e} :
    traced handle p e c = some (a, q) ↔
      handle p.1 e c = some (a, q.1) ∧ q.2 = ⟨e, a⟩ :: p.2 := by
  rw [traced, map_eq_some_iff]
  constructor
  · rintro ⟨⟨b, t⟩, hb, heq⟩
    cases heq
    exact ⟨hb, rfl⟩
  · obtain ⟨t, log⟩ := q
    rintro ⟨ha, rfl⟩
    exact ⟨(a, t), ha, rfl⟩

theorem results_eq_some {bs : List (Strand E A R)} {rs : List R} :
    results bs = some rs ↔ bs = rs.map done := by
  constructor
  · fun_induction results bs generalizing rs with
    | case1 => rintro ⟨⟩; rfl
    | case2 r bs ih =>
      intro h
      obtain ⟨rs', h', rfl⟩ := map_eq_some_iff.mp h
      rw [ih h', map_cons]
    | case3 => exact fun h ↦ absurd h (some_ne_none rs).symm
  · rintro rfl
    induction rs with
    | nil => rfl
    | cons r rs ih => rw [map_cons, results, ih, map_some]

theorem step_of_stepAt {c : C} {p : List ℕ} (h : stepAt handle c p (s, x) = some (t, y)) :
    Step handle s x t y := by
  induction p generalizing x y with
  | nil =>
    cases x with
    | done r => exact absurd h (by simp [stepAt])
    | perform e k =>
      obtain ⟨⟨a, u⟩, ha, h⟩ := map_eq_some_iff.mp h
      cases h
      exact .perform k ha
    | fork bs k =>
      obtain ⟨rs, hrs, h⟩ := map_eq_some_iff.mp h
      cases h
      rw [results_eq_some.mp hrs]
      exact .join rs k
  | cons i p ih =>
    cases x with
    | done r => exact absurd h (by simp [stepAt])
    | perform e k => exact absurd h (by simp [stepAt])
    | fork bs k =>
      obtain ⟨b, hb, h⟩ := bind_eq_some_iff.mp h
      obtain ⟨⟨u, b'⟩, hb', h⟩ := map_eq_some_iff.mp h
      cases h
      obtain ⟨hi, rfl⟩ := List.getElem?_eq_some_iff.mp hb
      have hbs : bs = bs.take i ++ bs[i] :: bs.drop (i + 1) := by
        rw [← drop_eq_getElem_cons hi, take_append_drop]
      have hstep := Step.branch (bs.take i) (bs.drop (i + 1)) k (ih hb')
      rw [← hbs] at hstep
      rwa [set_eq_take_append_cons_drop, if_pos hi]

theorem Step.exists_stepAt [Nonempty C] (h : Step handle s x t y) :
    ∃ c p, stepAt handle c p (s, x) = some (t, y) := by
  induction h with
  | @perform t e c a k h => exact ⟨c, [], by simp [stepAt, h]⟩
  | branch l r k h ih =>
    obtain ⟨c, p, hp⟩ := ih
    refine ⟨c, l.length :: p, ?_⟩
    simp [stepAt, hp]
  | join rs k =>
    obtain ⟨c⟩ := ‹Nonempty C›
    exact ⟨c, [], by simp [stepAt, results_eq_some.mpr rfl]⟩

/-- Any number of moves. -/
inductive Steps (handle : Handler E A σ C) (s : σ) (x : Strand E A R) :
    σ → Strand E A R → Prop
  | refl : Steps handle s x s x
  | tail {t u : σ} {y z : Strand E A R} (h : Steps handle s x t y) (h' : Step handle t y u z) :
      Steps handle s x u z

theorem Step.steps (h : Step handle s x t y) : Steps handle s x t y := .tail .refl h

theorem Steps.trans (h : Steps handle s x t y) (h' : Steps handle t y u z) :
    Steps handle s x u z := by
  induction h' with
  | refl => exact h
  | tail _ hstep ih => exact ih.tail hstep

theorem steps_of_run {as : List (List ℕ × C)}
    (h : Actions.run (move handle) (s, x) as = some (t, y)) : Steps handle s x t y := by
  induction as generalizing s x with
  | nil =>
    cases h
    exact .refl
  | cons a as ih =>
    obtain ⟨⟨u, z⟩, hz, h⟩ := Actions.run_cons_eq_some.mp h
    exact (step_of_stepAt hz).steps.trans (ih h)

theorem Steps.exists_run [Nonempty C] (h : Steps handle s x t y) :
    ∃ as, Actions.run (move handle) (s, x) as = some (t, y) := by
  induction h with
  | refl => exact ⟨[], rfl⟩
  | tail _ hstep ih =>
    obtain ⟨as, has⟩ := ih
    obtain ⟨c, p, hp⟩ := hstep.exists_stepAt
    refine ⟨as ++ [(p, c)], ?_⟩
    simp [Actions.run_append, has, Actions.run, move, hp]

theorem Steps.branch {b b' : Strand E A R} (h : Steps handle s b t b')
    (l r : List (Strand E A R)) (k : List R → Strand E A R) :
    Steps handle s (fork (l ++ b :: r) k) t (fork (l ++ b' :: r) k) := by
  induction h with
  | refl => exact .refl
  | tail _ hstep ih => exact ih.tail (.branch l r k hstep)

theorem Steps.eq_of_done {r : R} (h : Steps handle s (done r) t y) : y = done r := by
  induction h with
  | refl => rfl
  | tail _ hstep ih =>
    subst ih
    cases hstep

theorem Steps.exists_join {bs : List (Strand E A R)} {k : List R → Strand E A R} {r : R}
    (h : Steps handle s (fork bs k) t (done r)) :
    ∃ u rs, Steps handle u (k rs) t (done r) := by
  have hall : ∀ {t y}, Steps handle s (fork bs k) t y →
      (∃ cs, y = fork cs k) ∨ ∃ u rs, Steps handle u (k rs) t y := by
    intro t y h
    induction h with
    | refl => exact .inl ⟨bs, rfl⟩
    | tail _ hstep ih =>
      rcases ih with ⟨cs, rfl⟩ | ⟨u, rs, hrun⟩
      · cases hstep with
        | branch l q k h => exact .inl ⟨_, rfl⟩
        | join rs k => exact .inr ⟨_, rs, .refl⟩
      · exact .inr ⟨u, rs, hrun.tail hstep⟩
  rcases hall h with ⟨cs, hcs⟩ | hrun
  · cases hcs
  · exact hrun

theorem Step.map {handle' : Handler E A τ D} {f : σ → τ} (h : Step handle s x t y)
    (hsim : ∀ e c a, handle s e c = some (a, t) → ∃ d, handle' (f s) e d = some (a, f t)) :
    Step handle' (f s) x (f t) y := by
  induction h with
  | perform k h =>
    obtain ⟨d, hd⟩ := hsim _ _ _ h
    exact .perform k hd
  | branch l r k _ ih => exact .branch l r k (ih hsim)
  | join rs k => exact .join rs k

theorem Step.simulate {handle' : Handler E A τ D} {ρ : σ → τ → Prop} {s' : τ}
    (hsim : ∀ e c a t, handle s e c = some (a, t) → ∃ d t', handle' s' e d = some (a, t') ∧ ρ t t')
    (h : Step handle s x t y) (hs : ρ s s') : ∃ t', Step handle' s' x t' y ∧ ρ t t' := by
  induction h with
  | perform k h =>
    obtain ⟨d, t', hd, ht⟩ := hsim _ _ _ _ h
    exact ⟨t', .perform k hd, ht⟩
  | branch l r k _ ih =>
    obtain ⟨t', hstep, ht⟩ := ih
    exact ⟨t', .branch l r k hstep, ht⟩
  | join rs k => exact ⟨s', .join rs k, hs⟩

theorem Step.state {P : σ → σ → Prop} (h : Step handle s x t y) (hrefl : P s s)
    (hans : ∀ e c a, handle s e c = some (a, t) → P s t) : P s t := by
  induction h with
  | perform k h => exact hans _ _ _ h
  | branch l r k _ ih => exact ih hans
  | join rs k => exact hrefl

/-- A run of one environment is a run of another that gives the same answers as long as the state
is good, when a good state can only be reached from good ones. -/
theorem Steps.map {handle' : Handler E A τ D} {f : σ → τ} {good : σ → Prop}
    (hback : ∀ s e c a t, handle s e c = some (a, t) → good t → good s)
    (hsim : ∀ s e c a t, handle s e c = some (a, t) → good t →
      ∃ d, handle' (f s) e d = some (a, f t))
    (h : Steps handle s x t y) (hgood : good t) : Steps handle' (f s) x (f t) y := by
  induction h with
  | refl => exact .refl
  | @tail t u y z _ hstep ih =>
    have hprev : good u → good t :=
      hstep.state (P := fun a b ↦ good b → good a) id fun e c a ha ↦ hback t e c a u ha
    exact (ih (hprev hgood)).tail (hstep.map fun e c a ha ↦ hsim t e c a u ha hgood)

/-! ## Every strand ends -/

/-- What a strand can become in one move, whatever the state of the environment. -/
def Next (handle : Handler E A σ C) (y x : Strand E A R) : Prop :=
  ∃ s t, Step handle s x t y

def OneMoves {α : Type} (r : α → α → Prop) (bs' bs : List α) : Prop :=
  ∃ l b b' q, r b' b ∧ bs = l ++ b :: q ∧ bs' = l ++ b' :: q

theorem acc_oneMoves_cons {α : Type} {r : α → α → Prop} {b : α} {bs : List α} (hb : Acc r b)
    (hbs : Acc (OneMoves r) bs) : Acc (OneMoves r) (b :: bs) := by
  induction hb generalizing bs with
  | intro b hacc ihb =>
    have htail := hbs
    induction hbs with
    | intro bs hbs ihbs =>
      refine ⟨_, fun cs hcs ↦ ?_⟩
      obtain ⟨l, c, c', q, hc, heq, rfl⟩ := hcs
      cases l with
      | nil =>
        obtain ⟨rfl, rfl⟩ := cons.inj heq
        exact ihb c' hc htail
      | cons d l =>
        obtain ⟨rfl, rfl⟩ := cons.inj heq
        have hmove : OneMoves r (l ++ c' :: q) (l ++ c :: q) := ⟨l, c, c', q, hc, rfl, rfl⟩
        exact ihbs _ hmove (hbs _ hmove)

theorem acc_oneMoves {α : Type} {r : α → α → Prop} {bs : List α} (h : ∀ b ∈ bs, Acc r b) :
    Acc (OneMoves r) bs := by
  induction bs with
  | nil =>
    refine ⟨_, fun cs hcs ↦ ?_⟩
    obtain ⟨l, c, c', q, -, heq, -⟩ := hcs
    simp at heq
  | cons b bs ih =>
    rw [forall_mem_cons] at h
    exact acc_oneMoves_cons h.1 (ih h.2)

/-- **No schedule is infinite.** -/
theorem acc_next (handle : Handler E A σ C) (x : Strand E A R) : Acc (Next handle) x := by
  induction x using induct with
  | hdone r =>
    refine ⟨_, fun y hy ↦ ?_⟩
    obtain ⟨s, t, h⟩ := hy
    cases h
  | hperform e k ih =>
    refine ⟨_, fun y hy ↦ ?_⟩
    obtain ⟨s, t, h⟩ := hy
    cases h
    exact ih _
  | hfork bs k ihb ihk =>
    have hbs := acc_oneMoves ihb
    clear ihb
    induction hbs with
    | intro bs _ ih =>
      refine ⟨_, fun y hy ↦ ?_⟩
      obtain ⟨s, t, h⟩ := hy
      cases h with
      | branch l r k h => exact ih _ ⟨l, _, _, r, ⟨s, t, h⟩, rfl, rfl⟩
      | join rs k => exact ihk rs

theorem eq_map_done_or_exists (bs : List (Strand E A R)) :
    (∃ rs : List R, bs = rs.map done) ∨ ∃ l b r, bs = l ++ b :: r ∧ ∀ r', b ≠ done r' := by
  induction bs with
  | nil => exact .inl ⟨[], rfl⟩
  | cons b bs ih =>
    by_cases hb : ∃ r, b = done r
    · obtain ⟨r, rfl⟩ := hb
      rcases ih with ⟨rs, rfl⟩ | ⟨l, c, q, rfl, hc⟩
      · exact .inl ⟨r :: rs, rfl⟩
      · exact .inr ⟨done r :: l, c, q, rfl, hc⟩
    · exact .inr ⟨[], b, bs, rfl, fun r' h ↦ hb ⟨r', h⟩⟩

/-- A strand that has not ended can move, if the environment answers every effect. -/
theorem exists_step (htotal : ∀ s e, ∃ c a t, handle s e c = some (a, t)) (s : σ)
    (x : Strand E A R) : (∃ r, x = done r) ∨ ∃ t y, Step handle s x t y := by
  induction x using induct with
  | hdone r => exact .inl ⟨r, rfl⟩
  | hperform e k _ =>
    obtain ⟨c, a, t, h⟩ := htotal s e
    exact .inr ⟨t, k a, .perform k h⟩
  | hfork bs k ih _ =>
    right
    rcases eq_map_done_or_exists bs with ⟨rs, rfl⟩ | ⟨l, b, r, rfl, hne⟩
    · exact ⟨s, k rs, .join rs k⟩
    · rcases ih b (mem_append_right l mem_cons_self) with ⟨r', rfl⟩ | ⟨t, b', h⟩
      · exact absurd rfl (hne r')
      · exact ⟨t, _, .branch l r k h⟩

theorem exists_steps_done (htotal : ∀ s e, ∃ c a t, handle s e c = some (a, t)) (s : σ)
    (x : Strand E A R) : ∃ t r, Steps handle s x t (done r) := by
  induction acc_next handle x generalizing s with
  | intro x _ ih =>
    rcases exists_step htotal s x with ⟨r, rfl⟩ | ⟨t, y, h⟩
    · exact ⟨s, r, .refl⟩
    · obtain ⟨u, r, hr⟩ := ih y ⟨s, t, h⟩ t
      exact ⟨u, r, h.steps.trans hr⟩

inductive Ran (handle : Handler E A σ C) : σ → List (Strand E A R) → List R → σ → Prop
  | nil (s : σ) : Ran handle s [] [] s
  | cons {s t u : σ} {b : Strand E A R} {bs : List (Strand E A R)} {r : R} {rs : List R}
      (h : Steps handle s b t (done r)) (h' : Ran handle t bs rs u) :
      Ran handle s (b :: bs) (r :: rs) u

theorem exists_ran (htotal : ∀ s e, ∃ c a t, handle s e c = some (a, t)) (s : σ)
    (bs : List (Strand E A R)) : ∃ rs t, Ran handle s bs rs t := by
  induction bs generalizing s with
  | nil => exact ⟨[], s, .nil s⟩
  | cons b bs ih =>
    obtain ⟨t, r, h⟩ := exists_steps_done htotal s b
    obtain ⟨rs, u, h'⟩ := ih t
    exact ⟨r :: rs, u, .cons h h'⟩

theorem Ran.steps {bs : List (Strand E A R)} {rs : List R} (h : Ran handle s bs rs t)
    (l q : List (Strand E A R)) (k : List R → Strand E A R) :
    Steps handle s (fork (l ++ (bs ++ q)) k) t (fork (l ++ (rs.map done ++ q)) k) := by
  induction h generalizing l with
  | nil => exact .refl
  | @cons s t u b bs r rs h _ ih =>
    have hrest := ih (l ++ [done r])
    rw [append_assoc, append_assoc] at hrest
    exact (h.branch l (bs ++ q) k).trans hrest

/-! ## Answers that do not depend on the schedule -/

mutual

/-- The result of a strand whose effects are always answered in the same way. -/
def value (ans : ∀ e, A e) : Strand E A R → R
  | done r => r
  | perform e k => value ans (k (ans e))
  | fork bs k => value ans (k (values ans bs))
termination_by structural x => x

def values (ans : ∀ e, A e) : List (Strand E A R) → List R
  | [] => []
  | b :: bs => value ans b :: values ans bs
termination_by structural bs => bs

end

variable {ans : ∀ e, A e}

theorem values_eq_map (bs : List (Strand E A R)) : values ans bs = bs.map (value ans) := by
  induction bs with
  | nil => rfl
  | cons b bs ih => rw [values, ih, map_cons]

@[simp] theorem value_perform (e : E) (k : A e → Strand E A R) :
    value ans (perform e k) = value ans (k (ans e)) := rfl

@[simp] theorem value_fork (bs : List (Strand E A R)) (k : List R → Strand E A R) :
    value ans (fork bs k) = value ans (k (bs.map (value ans))) := by
  rw [← values_eq_map]
  rfl

@[simp] theorem map_value_done (rs : List R) :
    (rs.map (done : R → Strand E A R)).map (value ans) = rs := by
  rw [List.map_map]
  exact List.map_id rs

theorem Step.value_eq (hans : ∀ e c a, handle s e c = some (a, t) → a = ans e)
    (h : Step handle s x t y) : value ans y = value ans x := by
  induction h with
  | perform k h => rw [value_perform, hans _ _ _ h]
  | branch l r k _ ih => simp only [value_fork, map_append, map_cons, ih hans]
  | join rs k => rw [value_fork, map_value_done]

/-- **No interleaving changes the result** of a strand whose answers do not depend on it. -/
theorem Steps.value_eq (hans : ∀ s e c a t, handle s e c = some (a, t) → a = ans e)
    (h : Steps handle s x t y) : value ans y = value ans x := by
  induction h with
  | refl => rfl
  | tail _ hstep ih => rw [hstep.value_eq fun e c a ↦ hans _ e c a _, ih]

end Strand
