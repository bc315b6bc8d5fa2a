import Mathlib.Algebra.GroupWithZero.Nat
import WaferRun.Lib.Strands

/-!
# What a strand owes

Two properties of strands that every move preserves, whatever the environment answers.

A strand is *funded* with `n` credits if it never performs an effect it cannot pay for: every effect
has a cost, every answer a gain, and at a fork the credits are divided among the branches. So what
a funded strand has paid never exceeds what it was given and what it has earned (`Funded.step`).

A strand is *strict* if it gives up at once when it is answered badly, and at a join when a branch
has failed. After a bad answer a strict strand is *doomed*: some strand of it has failed, and it
stays so until the whole strand ends in a failure (`Strict.step`, `Doomed.fails_of_done`).
-/

open List

namespace Strand

variable {E : Type} {A : E → Type} {R σ C : Type}

/-! ## Credits -/

section Funded

variable (cost : E → ℕ) (gain : ∀ e, A e → ℕ)

mutual

/-- A strand that can pay for every effect it performs, with the credits it has. -/
def Funded : Strand E A R → ℕ → Prop
  | done _, _ => True
  | perform e k, n => cost e ≤ n ∧ ∀ a, Funded (k a) (n - cost e + gain e a)
  | fork bs k, n => ∃ m rest, n = m + rest ∧ FundedAll bs m ∧ ∀ rs, Funded (k rs) rest
termination_by structural x => x

/-- Branches that share the credits. -/
def FundedAll : List (Strand E A R) → ℕ → Prop
  | [], _ => True
  | b :: bs, n => ∃ m rest, n = m + rest ∧ Funded b m ∧ FundedAll bs rest
termination_by structural bs => bs

end

def paid (log : List (Σ e, A e)) : ℕ := (log.map fun p ↦ cost p.1).sum

def earned (log : List (Σ e, A e)) : ℕ := (log.map fun p ↦ gain p.1 p.2).sum

variable {cost gain}

theorem Funded.mono {x : Strand E A R} {n m : ℕ} (h : Funded cost gain x n) (hle : n ≤ m) :
    Funded cost gain x m := by
  induction x using Strand.induct generalizing n m with
  | hdone r => trivial
  | hperform e k ih =>
    obtain ⟨hcost, hk⟩ := h
    exact ⟨Nat.le_trans hcost hle, fun a ↦ ih a (hk a) (by omega)⟩
  | hfork bs k _ ihk =>
    obtain ⟨a, rest, rfl, hbs, hk⟩ := h
    exact ⟨a, m - a, by omega, hbs, fun rs ↦ ihk rs (hk rs) (by omega)⟩

theorem fundedAll_zero {bs : List (Strand E A R)} (h : ∀ b ∈ bs, Funded cost gain b 0) :
    FundedAll cost gain bs 0 := by
  induction bs with
  | nil => trivial
  | cons b bs ih =>
    rw [forall_mem_cons] at h
    exact ⟨0, 0, rfl, h.1, ih h.2⟩

theorem fundedAll_mid {l q : List (Strand E A R)} {b : Strand E A R} {n : ℕ}
    (h : FundedAll cost gain (l ++ b :: q) n) :
    ∃ m rest, n = m + rest ∧ Funded cost gain b m ∧
      ∀ b' m', Funded cost gain b' m' → FundedAll cost gain (l ++ b' :: q) (m' + rest) := by
  induction l generalizing n with
  | nil =>
    obtain ⟨m, rest, rfl, hb, hq⟩ := h
    exact ⟨m, rest, rfl, hb, fun b' m' hb' ↦ ⟨m', rest, rfl, hb', hq⟩⟩
  | cons c l ih =>
    obtain ⟨i, j, rfl, hc, hl⟩ := h
    obtain ⟨m, rest, rfl, hb, hother⟩ := ih hl
    refine ⟨m, i + rest, by omega, hb, fun b' m' hb' ↦ ?_⟩
    exact ⟨i, m' + rest, by omega, hc, hother b' m' hb'⟩

/-- **A move of a funded strand leaves a funded strand**: its credits go down by what it paid and
up by what it earned. -/
theorem Funded.step {handle : Handler E A σ C} {s t : σ × List (Σ e, A e)} {x y : Strand E A R}
    (h : Step (traced handle) s x t y) {n : ℕ} (hx : Funded cost gain x n) :
    ∃ m, Funded cost gain y m ∧
      m + paid cost t.2 + earned gain s.2 = n + paid cost s.2 + earned gain t.2 := by
  induction h generalizing n with
  | @perform t e c a k h =>
    refine ⟨_, hx.2 a, ?_⟩
    have hcost := hx.1
    rw [(traced_eq_some.mp h).2]
    simp only [paid, earned, map_cons, sum_cons]
    omega
  | branch l q k _ ih =>
    obtain ⟨i, rest, rfl, hbs, hk⟩ := hx
    obtain ⟨m, others, rfl, hb, hreplace⟩ := fundedAll_mid hbs
    obtain ⟨m', hb', heq⟩ := ih hb
    exact ⟨m' + others + rest, ⟨_, _, rfl, hreplace _ m' hb', hk⟩, by omega⟩
  | join rs k =>
    obtain ⟨i, rest, rfl, -, hk⟩ := hx
    exact ⟨i + rest, (hk rs).mono (Nat.le_add_left _ _), rfl⟩

end Funded

/-! ## Failure -/

section Strict

variable (bad : ∀ e, A e → Prop) (fails : R → Prop)

inductive Doomed : Strand E A R → Prop
  | done {r : R} (h : fails r) : Doomed (done r)
  | branch {bs : List (Strand E A R)} {k : List R → Strand E A R} {b : Strand E A R} (hb : b ∈ bs)
      (h : Doomed b) : Doomed (fork bs k)

/-- A strand that fails at once after a bad answer, and at a join after a failed branch. -/
inductive Strict : Strand E A R → Prop
  | done (r : R) : Strict (done r)
  | perform {e : E} {k : A e → Strand E A R} (hk : ∀ a, Strict (k a))
      (hbad : ∀ a, bad e a → Doomed fails (k a)) : Strict (perform e k)
  | fork {bs : List (Strand E A R)} {k : List R → Strand E A R} (hbs : ∀ b ∈ bs, Strict b)
      (hk : ∀ rs, Strict (k rs)) (hfail : ∀ rs, (∃ r ∈ rs, fails r) → Doomed fails (k rs)) :
      Strict (fork bs k)

variable {bad fails}

/-- A doomed strand ends in a failure. -/
theorem Doomed.fails_of_done {r : R} (h : Doomed fails (.done r : Strand E A R)) : fails r := by
  cases h with
  | done h => exact h

/-- **A strict strand stays strict, and a doomed one stays doomed; a bad answer dooms it.** -/
theorem Strict.step {handle : Handler E A σ C} {s t : σ × List (Σ e, A e)} {x y : Strand E A R}
    (h : Step (traced handle) s x t y) (hx : Strict bad fails x) :
    Strict bad fails y ∧ (Doomed fails x → Doomed fails y) ∧
      (t.2 = s.2 ∨ ∃ e a, t.2 = ⟨e, a⟩ :: s.2 ∧ (bad e a → Doomed fails y)) := by
  induction h with
  | @perform t e c a k h =>
    cases hx with
    | perform hk hbad =>
      refine ⟨hk a, fun hd ↦ ?_, .inr ⟨e, a, (traced_eq_some.mp h).2, hbad a⟩⟩
      cases hd
  | @branch t b b' l q k _ ih =>
    cases hx with
    | fork hbs hk hfail =>
      obtain ⟨hb', hkeep, hlog⟩ := ih (hbs b (mem_append_right l mem_cons_self))
      have hmem : b' ∈ l ++ b' :: q := mem_append_right l mem_cons_self
      refine ⟨.fork (fun c hc ↦ ?_) hk hfail, fun hd ↦ ?_, ?_⟩
      · rcases mem_append.mp hc with hc | hc
        · exact hbs c (mem_append_left _ hc)
        · rcases mem_cons.mp hc with rfl | hc
          · exact hb'
          · exact hbs c (mem_append_right l (mem_cons_of_mem b hc))
      · cases hd with
        | branch hc hdoomed =>
          rename_i c
          rcases mem_append.mp hc with hc | hc
          · exact .branch (mem_append_left _ hc) hdoomed
          · rcases mem_cons.mp hc with rfl | hc
            · exact .branch hmem (hkeep hdoomed)
            · exact .branch (mem_append_right l (mem_cons_of_mem b' hc)) hdoomed
      · rcases hlog with hsame | ⟨e, a, hlog, hbad⟩
        · exact .inl hsame
        · exact .inr ⟨e, a, hlog, fun h ↦ .branch hmem (hbad h)⟩
  | join rs k =>
    cases hx with
    | fork hbs hk hfail =>
      refine ⟨hk rs, fun hd ↦ hfail rs ?_, .inl rfl⟩
      cases hd with
      | branch hc hdoomed =>
        obtain ⟨r, hr, rfl⟩ := mem_map.mp hc
        exact ⟨r, hr, hdoomed.fails_of_done⟩

end Strict

end Strand
