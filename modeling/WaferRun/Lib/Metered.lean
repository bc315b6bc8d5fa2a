import WaferRun.Lib.Strands

/-!
# Strands that share a meter

The strands of this file pay for some of their effects from one meter. A charge the meter cannot
pay is refused, and a strand whose charge is refused fails at once. A fork reports the first failure
of its branches in the order in which they are written, whatever the order in which they fail.

Is the outcome of such a program independent of the schedule? Three numbers decide it: what is left
on the meter, the `demand` of the program (what all of it charges when nothing is refused), and its
`need` (what has to be charged before its failure is known, which leaves out the branches written
after the first one that fails).

* If the meter covers the demand, no charge is refused and every schedule gives the same result.
* If it does not cover the need, every schedule ends in the failure of the meter.
* In between, the schedule decides which of the two failures is reported.

So the outcome is independent of the schedule exactly outside the third case
(`Metering.outcome_unique_iff`).
-/

open List Option

namespace Strand

variable {E : Type} {A : E → Type} {R F : Type}

/-- Which effects are charged, how effects are answered, what a refused charge is answered with,
which results are failures, and how the failure of the meter is reported. -/
structure Metering (E : Type) (A : E → Type) (R F : Type) where
  ans : ∀ e, A e
  isCharge : E → Bool
  refusal : ∀ e, A e
  failure : R → Option F
  spent : F

namespace Metering

variable (M : Metering E A R F)

def meter : Handler E A ℕ Unit := fun left e _ ↦
  if M.isCharge e then
    match left with
    | 0 => some (M.refusal e, 0)
    | left + 1 => some (M.ans e, left)
  else some (M.ans e, left)

variable {M} in
theorem meter_free {e : E} (he : ¬M.isCharge e = true) (left : ℕ) :
    M.meter left e () = some (M.ans e, left) := if_neg he

variable {M} in
theorem meter_paid {e : E} (he : M.isCharge e = true) (left : ℕ) :
    M.meter (left + 1) e () = some (M.ans e, left) := if_pos he

variable {M} in
theorem meter_refused {e : E} (he : M.isCharge e = true) :
    M.meter 0 e () = some (M.refusal e, 0) := if_pos he

theorem meter_total (left : ℕ) (e : E) : ∃ c a t, M.meter left e c = some (a, t) := by
  refine ⟨(), ?_⟩
  unfold meter
  split
  · cases left <;> exact ⟨_, _, rfl⟩
  · exact ⟨_, _, rfl⟩

def firstFailure (rs : List R) : Option F := rs.findSome? M.failure

def fails (r : R) : Bool := (M.failure r).isSome

mutual

/-- A strand that fails at once when a charge is refused, and at a join when a branch failed. -/
def Prompt : Strand E A R → Prop
  | done _ => True
  | perform e k =>
    Prompt (k (M.ans e)) ∧
      (M.isCharge e → ∃ r, k (M.refusal e) = done r ∧ M.failure r = some M.spent)
  | fork bs k =>
    PromptAll bs ∧ ∀ rs,
      (∀ f, M.firstFailure rs = some f → ∃ r, k rs = done r ∧ M.failure r = some f) ∧
      (M.firstFailure rs = none → Prompt (k rs))
termination_by structural x => x

def PromptAll : List (Strand E A R) → Prop
  | [] => True
  | b :: bs => Prompt b ∧ PromptAll bs
termination_by structural bs => bs

end

mutual

def demand : Strand E A R → ℕ
  | done _ => 0
  | perform e k => (if M.isCharge e then 1 else 0) + demand (k (M.ans e))
  | fork bs k => demandAll bs + demand (k (values M.ans bs))
termination_by structural x => x

def demandAll : List (Strand E A R) → ℕ
  | [] => 0
  | b :: bs => demand b + demandAll bs
termination_by structural bs => bs

end

mutual

/-- What a strand charges before its failure is known. -/
def need : Strand E A R → ℕ
  | done _ => 0
  | perform e k => (if M.isCharge e then 1 else 0) + need (k (M.ans e))
  | fork bs k => needAll bs + need (k (values M.ans bs))
termination_by structural x => x

/-- The branches up to the first one that fails. -/
def needAll : List (Strand E A R) → ℕ
  | [] => 0
  | b :: bs => need b + if M.fails (value M.ans b) then 0 else needAll bs
termination_by structural bs => bs

end

variable {M}

theorem promptAll_iff {bs : List (Strand E A R)} : M.PromptAll bs ↔ ∀ b ∈ bs, M.Prompt b := by
  induction bs with
  | nil => simp [PromptAll]
  | cons b bs ih => rw [PromptAll, ih, forall_mem_cons]

theorem demandAll_append (bs cs : List (Strand E A R)) :
    M.demandAll (bs ++ cs) = M.demandAll bs + M.demandAll cs := by
  induction bs with
  | nil => rw [nil_append, demandAll, Nat.zero_add]
  | cons b bs ih => rw [cons_append, demandAll, demandAll, ih, Nat.add_assoc]

@[simp] theorem demand_done (r : R) : M.demand (done r : Strand E A R) = 0 := rfl

@[simp] theorem need_done (r : R) : M.need (done r : Strand E A R) = 0 := rfl

theorem demand_fork (bs : List (Strand E A R)) (k : List R → Strand E A R) :
    M.demand (fork bs k) = M.demandAll bs + M.demand (k (bs.map (value M.ans))) := by
  rw [demand, values_eq_map]

theorem need_fork (bs : List (Strand E A R)) (k : List R → Strand E A R) :
    M.need (fork bs k) = M.needAll bs + M.need (k (bs.map (value M.ans))) := by
  rw [need, values_eq_map]

@[simp] theorem demandAll_map_done (rs : List R) :
    M.demandAll (rs.map (done : R → Strand E A R)) = 0 := by
  induction rs with
  | nil => rfl
  | cons r rs ih => rw [map_cons, demandAll, demand_done, ih]

@[simp] theorem needAll_map_done (rs : List R) :
    M.needAll (rs.map (done : R → Strand E A R)) = 0 := by
  induction rs with
  | nil => rfl
  | cons r rs ih =>
    rw [map_cons, needAll, need_done, ih]
    split <;> rfl

theorem firstFailure_append (rs qs : List R) :
    M.firstFailure (rs ++ qs) = (M.firstFailure rs).or (M.firstFailure qs) :=
  List.findSome?_append

theorem firstFailure_cons (r : R) (rs : List R) :
    M.firstFailure (r :: rs) = (M.failure r).or (M.firstFailure rs) := by
  rw [firstFailure, List.findSome?_cons]
  cases M.failure r <;> rfl

theorem needAll_append (bs cs : List (Strand E A R)) :
    M.needAll (bs ++ cs) = M.needAll bs +
      if (M.firstFailure (bs.map (value M.ans))).isSome then 0 else M.needAll cs := by
  induction bs with
  | nil => simp [firstFailure, needAll]
  | cons b bs ih =>
    rw [cons_append, needAll, needAll, ih, map_cons, firstFailure_cons, fails]
    cases M.failure (value M.ans b) with
    | none =>
      simp only [isSome_none, Bool.false_eq_true, if_false, none_or]
      exact (Nat.add_assoc _ _ _).symm
    | some f => simp

theorem Prompt.fork_failure {bs : List (Strand E A R)} {k : List R → Strand E A R}
    (h : M.Prompt (fork bs k)) {rs : List R} {f : F} (hf : M.firstFailure rs = some f) :
    ∃ r, k rs = done r ∧ M.failure r = some f := (h.2 rs).1 f hf

theorem Prompt.of_mem {bs : List (Strand E A R)} {k : List R → Strand E A R}
    (h : M.Prompt (fork bs k)) {b : Strand E A R} (hb : b ∈ bs) : M.Prompt b :=
  promptAll_iff.mp h.1 b hb

/-! ## The outcome of a schedule -/

/-- Two results with the same outcome: the same failure, or no failure and the same result. -/
def Agrees (M : Metering E A R F) (r r' : R) : Prop :=
  M.failure r = M.failure r' ∧ (M.failure r' = none → r = r')

theorem Agrees.refl (r : R) : M.Agrees r r := ⟨rfl, fun _ ↦ rfl⟩

theorem Agrees.trans {r r' r'' : R} (h : M.Agrees r r') (h' : M.Agrees r' r'') :
    M.Agrees r r'' :=
  ⟨h.1.trans h'.1, fun hn ↦ (h.2 (h'.1.trans hn)).trans (h'.2 hn)⟩

/-- What one move does. Without a refusal the result to come stays the same, and the meter and the
demand drop together; a refusal makes the program fail. -/
inductive Moved (M : Metering E A R F) (left : ℕ) (x : Strand E A R) (left' : ℕ)
    (y : Strand E A R) : Prop
  | free (hleft : left' = left) (hvalue : value M.ans y = value M.ans x)
      (hdemand : M.demand y = M.demand x) (hneed : M.need y = M.need x)
  | paid (hleft : left = left' + 1) (hvalue : value M.ans y = value M.ans x)
      (hdemand : M.demand x = M.demand y + 1) (hneed : M.need y ≤ M.need x)
      (hneed' : M.need x ≤ M.need y + 1)
  | refused (hleft : left = 0) (hleft' : left' = 0) (hdemand : 0 < M.demand x)
      (hfails : M.failure (value M.ans y) ≠ none)
      (hwhich : (0 < M.need x ∧ M.failure (value M.ans y) = some M.spent) ∨
        (M.Agrees (value M.ans y) (value M.ans x) ∧ M.need y = M.need x))

theorem map_value_replace {l q : List (Strand E A R)} {b b' : Strand E A R}
    (h : value M.ans b' = value M.ans b) :
    (l ++ b' :: q).map (value M.ans) = (l ++ b :: q).map (value M.ans) := by
  rw [map_append, map_append, map_cons, map_cons, h]

theorem demandAll_mid (l q : List (Strand E A R)) (b : Strand E A R) :
    M.demandAll (l ++ b :: q) = M.demandAll l + M.demand b + M.demandAll q := by
  rw [demandAll_append, demandAll, Nat.add_assoc]

theorem needAll_mid (l q : List (Strand E A R)) (b : Strand E A R) :
    M.needAll (l ++ b :: q) = M.needAll l +
      if (M.firstFailure (l.map (value M.ans))).isSome then 0
      else M.need b + if M.fails (value M.ans b) then 0 else M.needAll q := by
  rw [needAll_append, needAll]

theorem firstFailure_mid (l q : List (Strand E A R)) (b : Strand E A R) :
    M.firstFailure ((l ++ b :: q).map (value M.ans)) =
      (M.firstFailure (l.map (value M.ans))).or
        ((M.failure (value M.ans b)).or (M.firstFailure (q.map (value M.ans)))) := by
  rw [map_append, firstFailure_append, map_cons, firstFailure_cons]

theorem Prompt.fork_of_failure {bs : List (Strand E A R)} {k : List R → Strand E A R}
    (h : M.Prompt (fork bs k)) (cs : List (Strand E A R)) {f : F}
    (hf : M.firstFailure (cs.map (value M.ans)) = some f) :
    M.failure (value M.ans (fork cs k)) = some f ∧ M.need (fork cs k) = M.needAll cs ∧
      M.demand (fork cs k) = M.demandAll cs := by
  obtain ⟨r, hr, hfail⟩ := h.fork_failure hf
  rw [value_fork, need_fork, demand_fork, hr]
  exact ⟨hfail, rfl, rfl⟩

theorem Prompt.replace {l q : List (Strand E A R)} {b b' : Strand E A R}
    {k : List R → Strand E A R} (h : M.Prompt (fork (l ++ b :: q) k)) (hb' : M.Prompt b') :
    M.Prompt (fork (l ++ b' :: q) k) := by
  refine ⟨promptAll_iff.mpr fun c hc ↦ ?_, h.2⟩
  rcases mem_append.mp hc with hc | hc
  · exact h.of_mem (mem_append_left _ hc)
  · rcases mem_cons.mp hc with rfl | hc
    · exact hb'
    · exact h.of_mem (mem_append_right _ (mem_cons_of_mem _ hc))

theorem Prompt.join {rs : List R} {k : List R → Strand E A R}
    (h : M.Prompt (fork (rs.map done) k)) : M.Prompt (k rs) := by
  cases hf : M.firstFailure rs with
  | none => exact (h.2 rs).2 hf
  | some f =>
    obtain ⟨r, hr, -⟩ := h.fork_failure hf
    rw [hr]
    trivial

section Branch

variable {left left' : ℕ} {l q : List (Strand E A R)} {b b' : Strand E A R}
  {k : List R → Strand E A R}

/-- A refusal in a branch decides the outcome of the fork, unless a branch before it fails. -/
theorem Moved.branch_refused (hx : M.Prompt (fork (l ++ b :: q) k)) (hleft : left = 0)
    (hleft' : left' = 0) (hdemand : 0 < M.demand b) (hfails : M.failure (value M.ans b') ≠ none)
    (hwhich : (0 < M.need b ∧ M.failure (value M.ans b') = some M.spent) ∨
      (M.Agrees (value M.ans b') (value M.ans b) ∧ M.need b' = M.need b)) :
    M.Moved left (fork (l ++ b :: q) k) left' (fork (l ++ b' :: q) k) := by
  obtain ⟨g, hg⟩ := Option.ne_none_iff_exists'.mp hfails
  have hdemand' : 0 < M.demand (fork (l ++ b :: q) k) := by
    rw [demand_fork, demandAll_mid]
    omega
  cases hl : M.firstFailure (l.map (value M.ans)) with
  | some f =>
    -- a branch before this one fails, so this one does not decide the outcome
    have hfx : M.firstFailure ((l ++ b :: q).map (value M.ans)) = some f := by
      rw [firstFailure_mid, hl, some_or]
    have hfy : M.firstFailure ((l ++ b' :: q).map (value M.ans)) = some f := by
      rw [firstFailure_mid, hl, some_or]
    obtain ⟨hvx, hnx, -⟩ := hx.fork_of_failure _ hfx
    obtain ⟨hvy, hny, -⟩ := hx.fork_of_failure _ hfy
    refine .refused hleft hleft' hdemand' (hvy ▸ some_ne_none f)
      (.inr ⟨⟨hvy.trans hvx.symm, ?_⟩, ?_⟩)
    · intro hnone
      rw [hvx] at hnone
      cases hnone
    · rw [hnx, hny, needAll_mid, needAll_mid, hl]
      rfl
  | none =>
    have hfy : M.firstFailure ((l ++ b' :: q).map (value M.ans)) = some g := by
      rw [firstFailure_mid, hl, hg, none_or, some_or]
    obtain ⟨hvy, hny, -⟩ := hx.fork_of_failure _ hfy
    refine .refused hleft hleft' hdemand' (hvy ▸ some_ne_none g) ?_
    rcases hwhich with ⟨hpos, hspent⟩ | ⟨hagrees, hneed⟩
    · refine .inl ⟨?_, ?_⟩
      · rw [need_fork, needAll_mid, hl]
        simp only [isSome_none, Bool.false_eq_true, if_false]
        omega
      · rw [hvy, ← hg, hspent]
    · have hgx : M.failure (value M.ans b) = some g := hagrees.1.symm.trans hg
      have hfx : M.firstFailure ((l ++ b :: q).map (value M.ans)) = some g := by
        rw [firstFailure_mid, hl, hgx, none_or, some_or]
      obtain ⟨hvx, hnx, -⟩ := hx.fork_of_failure _ hfx
      refine .inr ⟨⟨hvy.trans hvx.symm, ?_⟩, ?_⟩
      · intro hnone
        rw [hvx] at hnone
        cases hnone
      · rw [hnx, hny, needAll_mid, needAll_mid, hneed, fails, fails, hg, hgx]

theorem Moved.branch (hx : M.Prompt (fork (l ++ b :: q) k)) (h : M.Moved left b left' b') :
    M.Moved left (fork (l ++ b :: q) k) left' (fork (l ++ b' :: q) k) := by
  cases h with
  | free hleft hvalue hdemand hneed =>
    refine .free hleft ?_ ?_ ?_
    · rw [value_fork, value_fork, map_value_replace hvalue]
    · rw [demand_fork, demand_fork, map_value_replace hvalue, demandAll_mid, demandAll_mid,
        hdemand]
    · rw [need_fork, need_fork, map_value_replace hvalue, needAll_mid, needAll_mid, hvalue, hneed]
  | paid hleft hvalue hdemand hneed hneed' =>
    refine .paid hleft ?_ ?_ ?_ ?_
    · rw [value_fork, value_fork, map_value_replace hvalue]
    · rw [demand_fork, demand_fork, map_value_replace hvalue, demandAll_mid, demandAll_mid,
        hdemand]
      omega
    · rw [need_fork, need_fork, map_value_replace hvalue, needAll_mid, needAll_mid, hvalue]
      split <;> omega
    · rw [need_fork, need_fork, map_value_replace hvalue, needAll_mid, needAll_mid, hvalue]
      split <;> omega
  | refused hleft hleft' hdemand hfails hwhich =>
    exact .branch_refused hx hleft hleft' hdemand hfails hwhich

end Branch

theorem Prompt.step {left left' : ℕ} {x y : Strand E A R} (hx : M.Prompt x)
    (h : Step M.meter left x left' y) : M.Prompt y ∧ M.Moved left x left' y := by
  induction h with
  | @perform left' e c a k h =>
    unfold meter at h
    split at h
    · rename_i he
      cases left with
      | zero =>
        cases h
        obtain ⟨r, hr, hfail⟩ := hx.2 he
        rw [hr]
        have hfails : M.failure r ≠ none := fun hnone ↦ some_ne_none _ (hfail.symm.trans hnone)
        refine ⟨trivial, .refused rfl rfl ?_ hfails (.inl ⟨?_, hfail⟩)⟩
        · rw [demand, if_pos he]
          omega
        · rw [need, if_pos he]
          omega
      | succ left =>
        cases h
        refine ⟨hx.1, .paid rfl rfl ?_ ?_ ?_⟩
        · rw [demand, if_pos he, Nat.add_comm]
        · rw [need, if_pos he]
          omega
        · rw [need, if_pos he]
          omega
    · rename_i he
      cases h
      refine ⟨hx.1, .free rfl rfl ?_ ?_⟩
      · rw [demand, if_neg he, Nat.zero_add]
      · rw [need, if_neg he, Nat.zero_add]
  | @branch left' b b' l q k hb ih =>
    obtain ⟨hb', hmoved⟩ := ih (hx.of_mem (mem_append_right l mem_cons_self))
    exact ⟨hx.replace hb', hmoved.branch hx⟩
  | join rs k =>
    refine ⟨hx.join, .free rfl ?_ ?_ ?_⟩
    · rw [value_fork, map_value_done]
    · rw [demand_fork, map_value_done, demandAll_map_done, Nat.zero_add]
    · rw [need_fork, map_value_done, needAll_map_done, Nat.zero_add]

/-- **The demand pays for every charge**, also for the ones that are refused: each charge lowers the
demand by at least one, whoever answers it. -/
theorem Prompt.demand_step {σ C : Type} {handle : Handler E A σ C} (weight : σ → ℕ) {s t : σ}
    {x y : Strand E A R} (hx : M.Prompt x) (h : Step handle s x t y)
    (hans : ∀ e c a, handle s e c = some (a, t) →
      (a = M.ans e ∨ M.isCharge e = true ∧ a = M.refusal e) ∧
      weight t = weight s + if M.isCharge e then 1 else 0) :
    M.Prompt y ∧ weight t + M.demand y ≤ weight s + M.demand x ∧
      (value M.ans y = value M.ans x ∨ M.failure (value M.ans y) ≠ none) := by
  induction h with
  | @perform t e c a k h =>
    obtain ⟨hanswer, hweight⟩ := hans e c a h
    rw [hweight, demand]
    rcases hanswer with rfl | ⟨he, rfl⟩
    · exact ⟨hx.1, Nat.le_of_eq (Nat.add_assoc _ _ _), .inl rfl⟩
    · obtain ⟨r, hr, hfail⟩ := hx.2 he
      rw [hr, demand_done]
      exact ⟨trivial, by omega, .inr fun hnone ↦ some_ne_none _ (hfail.symm.trans hnone)⟩
  | @branch t b b' l q k _ ih =>
    obtain ⟨hb', hdemand, hvalue⟩ := ih (hx.of_mem (mem_append_right l mem_cons_self)) hans
    have hy := hx.replace hb'
    rcases hvalue with hvalue | hfails
    · rw [demand_fork, demand_fork, map_value_replace hvalue, demandAll_mid, demandAll_mid]
      refine ⟨hy, by omega, .inl ?_⟩
      rw [value_fork, value_fork, map_value_replace hvalue]
    · obtain ⟨g, hg⟩ := Option.ne_none_iff_exists'.mp hfails
      obtain ⟨f, hf⟩ : ∃ f, M.firstFailure ((l ++ b' :: q).map (value M.ans)) = some f := by
        rw [firstFailure_mid, hg, some_or]
        cases M.firstFailure (l.map (value M.ans)) with
        | some f => exact ⟨f, rfl⟩
        | none => exact ⟨g, rfl⟩
      obtain ⟨hfail, -, hforked⟩ := hy.fork_of_failure _ hf
      rw [hforked, demand_fork, demandAll_mid, demandAll_mid]
      exact ⟨hy, by omega, .inr fun hnone ↦ some_ne_none f (hfail.symm.trans hnone)⟩
  | join rs k =>
    rw [demand_fork, map_value_done, demandAll_map_done, Nat.zero_add, value_fork, map_value_done]
    exact ⟨hx.join, Nat.le_refl _, .inl rfl⟩

/-- What is known in the middle of a run: nothing was refused, or the program fails. -/
inductive Progress (M : Metering E A R F) (left : ℕ) (x : Strand E A R) (left' : ℕ)
    (y : Strand E A R) : Prop
  | paid (charges : ℕ) (hleft : left = left' + charges) (hvalue : value M.ans y = value M.ans x)
      (hdemand : M.demand x = M.demand y + charges) (hneed : M.need y ≤ M.need x)
      (hneed' : M.need x ≤ M.need y + charges)
  | refused (hleft' : left' = 0) (hdemand : left < M.demand x)
      (hfails : M.failure (value M.ans y) ≠ none)
      (hwhich : (0 < M.need x ∧ M.failure (value M.ans y) = some M.spent) ∨
        (M.Agrees (value M.ans y) (value M.ans x) ∧ M.need y ≤ M.need x ∧
          M.need x ≤ M.need y + left))

theorem Progress.move {left mid left' : ℕ} {x y z : Strand E A R} (h : M.Progress left x mid y)
    (h' : M.Moved mid y left' z) : M.Progress left x left' z := by
  cases h with
  | paid c hleft hvalue hdemand hneed hneed' =>
    cases h' with
    | free hl hv hd hn =>
      exact .paid c (by omega) (hv.trans hvalue) (by omega) (by omega) (by omega)
    | paid hl hv hd hn hn' =>
      exact .paid (c + 1) (by omega) (hv.trans hvalue) (by omega) (by omega) (by omega)
    | refused hl hl' hd hf hw =>
      refine .refused hl' (by omega) hf ?_
      rcases hw with ⟨hpos, hspent⟩ | ⟨hagrees, hn⟩
      · exact .inl ⟨by omega, hspent⟩
      · exact .inr ⟨hvalue ▸ hagrees, by omega, by omega⟩
  | refused hleft hdemand hfails hwhich =>
    cases h' with
    | free hl hv hd hn =>
      refine .refused (by omega) hdemand (hv ▸ hfails) ?_
      rw [hv, hn]
      exact hwhich
    | paid hl hv hd hn hn' => omega
    | refused hl hl' hd hf hw =>
      refine .refused hl' hdemand hf ?_
      rcases hw with ⟨hpos, hspent⟩ | ⟨hagrees, hn⟩
      · rcases hwhich with ⟨hpos', -⟩ | ⟨-, hle, -⟩
        · exact .inl ⟨hpos', hspent⟩
        · exact .inl ⟨by omega, hspent⟩
      · rcases hwhich with ⟨hpos', hspent⟩ | ⟨hagrees', hle, hle'⟩
        · exact .inl ⟨hpos', hagrees.1.trans hspent⟩
        · exact .inr ⟨hagrees.trans hagrees', by omega, by omega⟩

theorem Prompt.steps {left left' : ℕ} {x y : Strand E A R} (hx : M.Prompt x)
    (h : Steps M.meter left x left' y) : M.Prompt y ∧ M.Progress left x left' y := by
  induction h with
  | refl => exact ⟨hx, .paid 0 rfl rfl rfl (Nat.le_refl _) (Nat.le_refl _)⟩
  | tail _ hstep ih =>
    obtain ⟨hy, hprogress⟩ := ih
    obtain ⟨hz, hmoved⟩ := hy.step hstep
    exact ⟨hz, hprogress.move hmoved⟩

/-- **What a whole run does.** If the meter covers the demand, the run has the result it has without
a meter. If it does not, the run fails: with the failure of the meter, or with its own if the meter
covers the need. -/
theorem Prompt.run {left left' : ℕ} {x : Strand E A R} {r : R} (hx : M.Prompt x)
    (h : Steps M.meter left x left' (done r)) :
    (left = left' + M.demand x ∧ r = value M.ans x) ∨
    (left < M.demand x ∧ left' = 0 ∧ M.failure r ≠ none ∧
      ((0 < M.need x ∧ M.failure r = some M.spent) ∨
        (M.Agrees r (value M.ans x) ∧ M.need x ≤ left))) := by
  obtain ⟨-, hprogress⟩ := hx.steps h
  cases hprogress with
  | paid c hleft hvalue hdemand hneed hneed' =>
    rw [demand_done] at hdemand
    exact .inl ⟨by omega, hvalue⟩
  | refused hleft hdemand hfails hwhich =>
    rw [need_done] at hwhich
    refine .inr ⟨hdemand, hleft, hfails, ?_⟩
    rcases hwhich with hspent | ⟨hagrees, -, hle⟩
    · exact .inl hspent
    · exact .inr ⟨hagrees, by omega⟩

/-! ## Schedules that decide the outcome -/

theorem needAll_eq_demandAll {bs : List (Strand E A R)}
    (hok : M.firstFailure (bs.map (value M.ans)) = none)
    (h : ∀ b ∈ bs, M.failure (value M.ans b) = none → M.need b = M.demand b) :
    M.needAll bs = M.demandAll bs := by
  induction bs with
  | nil => rfl
  | cons b bs ih =>
    rw [map_cons, firstFailure_cons, or_eq_none_iff] at hok
    rw [forall_mem_cons] at h
    rw [needAll, demandAll, fails, hok.1, h.1 hok.1, ih hok.2 h.2]
    rfl

theorem Prompt.need_eq_demand {x : Strand E A R} (hx : M.Prompt x)
    (hok : M.failure (value M.ans x) = none) : M.need x = M.demand x := by
  induction x using Strand.induct with
  | hdone r => rfl
  | hperform e k ih => rw [need, demand, ih (M.ans e) hx.1 hok]
  | hfork bs k ihb ihk =>
    have hnone : M.firstFailure (bs.map (value M.ans)) = none := by
      cases hf : M.firstFailure (bs.map (value M.ans)) with
      | none => rfl
      | some f =>
        rw [(hx.fork_of_failure bs hf).1] at hok
        cases hok
    rw [value_fork] at hok
    rw [need_fork, demand_fork, needAll_eq_demandAll hnone fun b hb hb' ↦ ihb b hb (hx.of_mem hb) hb',
      ihk _ ((hx.2 _).2 hnone) hok]

/-- Branches that run one after another with enough on the meter report what they report without
one. -/
theorem exists_ran_agrees {bs : List (Strand E A R)} (hbs : ∀ b ∈ bs, M.Prompt b)
    (ih : ∀ b ∈ bs, ∀ left, M.need b ≤ left →
      ∃ left' r, Steps M.meter left b left' (done r) ∧ M.Agrees r (value M.ans b))
    (left : ℕ) (hneed : M.needAll bs ≤ left) :
    ∃ rs left', Ran M.meter left bs rs left' ∧
      (M.firstFailure (bs.map (value M.ans)) = none →
        rs = bs.map (value M.ans) ∧ left = left' + M.demandAll bs) ∧
      ∀ f, M.firstFailure (bs.map (value M.ans)) = some f → M.firstFailure rs = some f := by
  induction bs generalizing left with
  | nil => exact ⟨[], left, .nil left, fun _ ↦ ⟨rfl, rfl⟩, fun f hf ↦ by cases hf⟩
  | cons b bs ihbs =>
    rw [forall_mem_cons] at hbs ih
    rw [needAll] at hneed
    obtain ⟨mid, r, hrun, hagrees⟩ := ih.1 left (by omega)
    rw [map_cons]
    cases hfail : M.failure (value M.ans b) with
    | some g =>
      -- the other branches do not matter
      obtain ⟨rs, left', hran⟩ := exists_ran M.meter_total mid bs
      refine ⟨r :: rs, left', .cons hrun hran, ?_, ?_⟩
      · rw [firstFailure_cons, hfail]
        exact fun h ↦ by cases h
      · rw [firstFailure_cons, firstFailure_cons, hagrees.1, hfail]
        exact fun f hf ↦ hf
    | none =>
      rcases hbs.1.run hrun with ⟨hleft, hr⟩ | ⟨-, -, hfails, -⟩
      · rw [fails, hfail, hbs.1.need_eq_demand hfail] at hneed
        simp only [isSome_none, Bool.false_eq_true, if_false] at hneed
        obtain ⟨rs, left', hran, hok, hfst⟩ := ihbs hbs.2 ih.2 mid (by omega)
        refine ⟨r :: rs, left', .cons hrun hran, ?_, ?_⟩
        · rw [firstFailure_cons, hfail, none_or]
          intro hnone
          obtain ⟨hrs, hleft'⟩ := hok hnone
          rw [hr, hrs, demandAll]
          exact ⟨rfl, by omega⟩
        · rw [firstFailure_cons, firstFailure_cons, hagrees.1, hfail, none_or, none_or]
          exact hfst
      · rw [hagrees.1, hfail] at hfails
        exact absurd rfl hfails

/-- **If the meter covers the need, some schedule gives the outcome without a meter**: the one that
runs branches in the order they are written. -/
theorem Prompt.exists_agrees {x : Strand E A R} (hx : M.Prompt x) {left : ℕ}
    (hneed : M.need x ≤ left) :
    ∃ left' r, Steps M.meter left x left' (done r) ∧ M.Agrees r (value M.ans x) := by
  induction x using Strand.induct generalizing left with
  | hdone r => exact ⟨left, r, .refl, .refl r⟩
  | hperform e k ih =>
    rw [need] at hneed
    by_cases he : M.isCharge e = true
    · rw [if_pos he] at hneed
      obtain ⟨mid, rfl⟩ : ∃ mid, left = mid + 1 := ⟨left - 1, by omega⟩
      have hstep : Step M.meter (mid + 1) (perform e k) mid (k (M.ans e)) :=
        .perform k (meter_paid he mid)
      obtain ⟨left', r, hrun, hagrees⟩ := @ih (M.ans e) hx.1 mid (by omega)
      exact ⟨left', r, hstep.steps.trans hrun, hagrees⟩
    · rw [if_neg he] at hneed
      have hstep : Step M.meter left (perform e k) left (k (M.ans e)) :=
        .perform k (meter_free he left)
      obtain ⟨left', r, hrun, hagrees⟩ := @ih (M.ans e) hx.1 left (by omega)
      exact ⟨left', r, hstep.steps.trans hrun, hagrees⟩
  | hfork bs k ihb ihk =>
    rw [need_fork] at hneed
    obtain ⟨rs, mid, hran, hok, hfst⟩ := exists_ran_agrees (fun b hb ↦ hx.of_mem hb)
      (fun b hb left hle ↦ ihb b hb (hx.of_mem hb) hle) left (by omega)
    have hsteps := hran.steps [] [] k
    rw [nil_append, nil_append, append_nil, append_nil] at hsteps
    have hjoin := hsteps.tail (.join rs k)
    cases hf : M.firstFailure (bs.map (value M.ans)) with
    | some f =>
      obtain ⟨r, hr, hfail⟩ := hx.fork_failure (hfst f hf)
      rw [hr] at hjoin
      have hvalue := (hx.fork_of_failure bs hf).1
      refine ⟨mid, r, hjoin, hfail.trans hvalue.symm, fun hnone ↦ ?_⟩
      rw [hvalue] at hnone
      cases hnone
    | none =>
      obtain ⟨rfl, hleft⟩ := hok hf
      have hall := needAll_eq_demandAll hf
        fun b hb hb' ↦ (hx.of_mem hb).need_eq_demand hb'
      obtain ⟨left', r, hrun, hagrees⟩ := @ihk _ ((hx.2 _).2 hf) mid (by omega)
      rw [value_fork]
      exact ⟨left', r, hjoin.trans hrun, hagrees⟩

mutual

/-- Every branch that fails charges before its failure is known. -/
def Opened (M : Metering E A R F) : Strand E A R → Prop
  | done _ => True
  | perform e k => Opened M (k (M.ans e))
  | fork bs k => OpenedAll M bs ∧ Opened M (k (values M.ans bs))
termination_by structural x => x

def OpenedAll (M : Metering E A R F) : List (Strand E A R) → Prop
  | [] => True
  | b :: bs => (Opened M b ∧ (M.fails (value M.ans b) → 0 < M.need b)) ∧ OpenedAll M bs
termination_by structural bs => bs

end

theorem openedAll_iff {bs : List (Strand E A R)} :
    OpenedAll M bs ↔ ∀ b ∈ bs, Opened M b ∧ (M.fails (value M.ans b) → 0 < M.need b) := by
  induction bs with
  | nil => simp [OpenedAll]
  | cons b bs ih => rw [OpenedAll, ih, forall_mem_cons]

theorem needAll_le_demandAll {bs : List (Strand E A R)} (h : ∀ b ∈ bs, M.need b ≤ M.demand b) :
    M.needAll bs ≤ M.demandAll bs := by
  induction bs with
  | nil => exact Nat.le_refl _
  | cons b bs ih =>
    rw [forall_mem_cons] at h
    have htail := ih h.2
    rw [needAll, demandAll]
    split <;> omega

theorem need_le_demand (x : Strand E A R) : M.need x ≤ M.demand x := by
  induction x using Strand.induct with
  | hdone r => exact Nat.le_refl _
  | hperform e k ih =>
    rw [need, demand]
    exact Nat.add_le_add_left (ih _) _
  | hfork bs k ihb ihk =>
    rw [need_fork, demand_fork]
    exact Nat.add_le_add (needAll_le_demandAll ihb) (ihk _)

theorem left_of_ran {bs : List (Strand E A R)} (hbs : ∀ b ∈ bs, M.Prompt b) {left left' : ℕ}
    {rs : List R} (h : Ran M.meter left bs rs left') : left' = left - M.demandAll bs := by
  induction h with
  | nil => rfl
  | cons h _ ih =>
    rw [forall_mem_cons] at hbs
    rw [ih hbs.2, demandAll]
    rcases hbs.1.run h with ⟨hleft, -⟩ | ⟨hlt, hleft, -⟩ <;> omega

theorem ran_of_ok {bs : List (Strand E A R)} (hbs : ∀ b ∈ bs, M.Prompt b)
    (hok : M.firstFailure (bs.map (value M.ans)) = none) {left left' : ℕ} {rs : List R}
    (h : Ran M.meter left bs rs left') :
    (M.demandAll bs ≤ left ∧ rs = bs.map (value M.ans)) ∨
      (left < M.demandAll bs ∧ M.firstFailure rs = some M.spent) := by
  induction h with
  | nil => exact .inl ⟨Nat.zero_le _, rfl⟩
  | @cons left mid left' b bs r rs h _ ih =>
    rw [forall_mem_cons] at hbs
    rw [map_cons, firstFailure_cons, or_eq_none_iff] at hok
    rw [map_cons, firstFailure_cons, demandAll]
    rcases hbs.1.run h with ⟨hleft, hr⟩ | ⟨hlt, -, hfails, hwhich⟩
    · subst hr
      rcases ih hbs.2 hok.2 with ⟨hle, hrs⟩ | ⟨hlt, hspent⟩
      · exact .inl ⟨by omega, by rw [hrs]⟩
      · exact .inr ⟨by omega, by rw [hok.1, none_or, hspent]⟩
    · refine .inr ⟨by omega, ?_⟩
      rcases hwhich with ⟨-, hspent⟩ | ⟨hagrees, -⟩
      · rw [hspent, some_or]
      · rw [hagrees.1, hok.1] at hfails
        exact absurd rfl hfails

theorem exists_first_failure {bs : List (Strand E A R)} {f : F}
    (h : M.firstFailure (bs.map (value M.ans)) = some f) :
    ∃ l b q, bs = l ++ b :: q ∧ M.firstFailure (l.map (value M.ans)) = none ∧
      M.failure (value M.ans b) = some f := by
  induction bs with
  | nil => cases h
  | cons b bs ih =>
    rw [map_cons, firstFailure_cons] at h
    cases hb : M.failure (value M.ans b) with
    | some g =>
      rw [hb, some_or] at h
      cases h
      exact ⟨[], b, bs, rfl, rfl, hb⟩
    | none =>
      rw [hb, none_or] at h
      obtain ⟨l, c, q, rfl, hl, hc⟩ := ih h
      refine ⟨b :: l, c, q, rfl, ?_, hc⟩
      rw [map_cons, firstFailure_cons, hb, none_or, hl]

/-- **If the meter does not cover the demand, some schedule ends in the failure of the meter**: the
one that lets a branch that decides the outcome run last. -/
theorem Prompt.exists_spent {x : Strand E A R} (hx : M.Prompt x) (hopen : Opened M x) {left : ℕ}
    (hlt : left < M.demand x) :
    ∃ left' r, Steps M.meter left x left' (done r) ∧ M.failure r = some M.spent := by
  induction x using Strand.induct generalizing left with
  | hdone r => exact absurd hlt (Nat.not_lt_zero _)
  | hperform e k ih =>
    rw [demand] at hlt
    by_cases he : M.isCharge e = true
    · rw [if_pos he] at hlt
      cases left with
      | zero =>
        obtain ⟨r, hr, hspent⟩ := hx.2 he
        have hstep : Step M.meter 0 (perform e k) 0 (k (M.refusal e)) :=
          .perform k (meter_refused he)
        rw [hr] at hstep
        exact ⟨0, r, hstep.steps, hspent⟩
      | succ mid =>
        have hstep : Step M.meter (mid + 1) (perform e k) mid (k (M.ans e)) :=
          .perform k (meter_paid he mid)
        obtain ⟨left', r, hrun, hspent⟩ := @ih (M.ans e) hx.1 hopen mid (by omega)
        exact ⟨left', r, hstep.steps.trans hrun, hspent⟩
    · rw [if_neg he] at hlt
      have hstep : Step M.meter left (perform e k) left (k (M.ans e)) :=
        .perform k (meter_free he left)
      obtain ⟨left', r, hrun, hspent⟩ := @ih (M.ans e) hx.1 hopen left (by omega)
      exact ⟨left', r, hstep.steps.trans hrun, hspent⟩
  | hfork bs k ihb ihk =>
    cases hf : M.firstFailure (bs.map (value M.ans)) with
    | some f =>
      rw [(hx.fork_of_failure bs hf).2.2] at hlt
      obtain ⟨l, b, q, rfl, hl, hb⟩ := exists_first_failure hf
      have hmem : b ∈ l ++ b :: q := mem_append_right l mem_cons_self
      have hlp : ∀ c ∈ l, M.Prompt c := fun c hc ↦ hx.of_mem (mem_append_left _ hc)
      have hqp : ∀ c ∈ q, M.Prompt c := fun c hc ↦
        hx.of_mem (mem_append_right _ (mem_cons_of_mem _ hc))
      obtain ⟨hopenb, hpos⟩ := openedAll_iff.mp hopen.1 b hmem
      have hposb : 0 < M.need b := hpos (by rw [fails, hb]; rfl)
      have hle := need_le_demand (M := M) b
      -- the branches before and after it run first, then the one that decides
      obtain ⟨rs, m₁, hl'⟩ := exists_ran M.meter_total left l
      obtain ⟨ps, m₂, hq'⟩ := exists_ran M.meter_total m₁ q
      have hm₁ := left_of_ran hlp hl'
      have hm₂ := left_of_ran hqp hq'
      rw [demandAll_mid] at hlt
      obtain ⟨m₃, r, hrun, hspent⟩ := @ihb b hmem (hx.of_mem hmem) hopenb m₂ (by omega)
      have h₁ := hl'.steps [] (b :: q) k
      have h₂ := hq'.steps (rs.map done ++ [b]) [] k
      have h₃ := hrun.branch (rs.map done) (ps.map done) k
      simp only [nil_append, append_nil, append_assoc, singleton_append] at h₁ h₂
      have hall : rs.map done ++ done r :: ps.map (done : R → Strand E A R) =
          (rs ++ r :: ps).map done := by
        rw [map_append, map_cons]
      rw [hall] at h₃
      have hfirst : M.firstFailure (rs ++ r :: ps) = some M.spent := by
        rw [firstFailure_append, firstFailure_cons, hspent, some_or]
        rcases ran_of_ok hlp hl hl' with ⟨-, rfl⟩ | ⟨-, hspent'⟩
        · rw [hl, none_or]
        · rw [hspent', some_or]
      obtain ⟨r', hr', hfail⟩ := hx.fork_failure hfirst
      have hjoin := ((h₁.trans h₂).trans h₃).tail (.join _ k)
      rw [hr'] at hjoin
      exact ⟨m₃, r', hjoin, hfail⟩
    | none =>
      rw [demand_fork] at hlt
      obtain ⟨rs, mid, hran⟩ := exists_ran M.meter_total left bs
      have hbs : ∀ b ∈ bs, M.Prompt b := fun b hb ↦ hx.of_mem hb
      have hmid := left_of_ran hbs hran
      have hsteps := hran.steps [] [] k
      rw [nil_append, nil_append, append_nil, append_nil] at hsteps
      have hjoin := hsteps.tail (.join rs k)
      rcases ran_of_ok hbs hf hran with ⟨hle, rfl⟩ | ⟨-, hspent⟩
      · have hopenk : Opened M (k (bs.map (value M.ans))) := by
          rw [← values_eq_map]
          exact hopen.2
        obtain ⟨left', r, hrun, hspent⟩ := @ihk _ ((hx.2 _).2 hf) hopenk mid (by omega)
        exact ⟨left', r, hjoin.trans hrun, hspent⟩
      · obtain ⟨r, hr, hfail⟩ := hx.fork_failure hspent
        rw [hr] at hjoin
        exact ⟨mid, r, hjoin, hfail⟩

/-- **When the outcome does not depend on the schedule**: not in the case that the program fails by
itself, the meter covers what is needed for that failure, and it does not cover everything. -/
theorem outcome_unique_iff {x : Strand E A R} (hx : M.Prompt x) (hopen : Opened M x) (left : ℕ) :
    (∀ left₁ r₁ left₂ r₂, Steps M.meter left x left₁ (done r₁) →
      Steps M.meter left x left₂ (done r₂) → M.Agrees r₁ r₂) ↔
    ¬∃ f, M.failure (value M.ans x) = some f ∧ f ≠ M.spent ∧ M.need x ≤ left ∧
      left < M.demand x := by
  constructor
  · rintro h ⟨f, hf, hne, hneed, hlt⟩
    obtain ⟨left₁, r₁, hrun₁, hagrees⟩ := hx.exists_agrees hneed
    obtain ⟨left₂, r₂, hrun₂, hspent⟩ := hx.exists_spent hopen hlt
    have h₁₂ := (h _ _ _ _ hrun₁ hrun₂).1
    rw [hagrees.1, hf, hspent] at h₁₂
    exact hne (some.inj h₁₂)
  · intro h left₁ r₁ left₂ r₂ h₁ h₂
    -- a run that is refused a charge ends in the failure of the meter
    have hspent : ∀ left' r, Steps M.meter left x left' (done r) → left < M.demand x →
        M.failure r = some M.spent := by
      intro left' r hrun hlt
      rcases hx.run hrun with ⟨hleft, -⟩ | ⟨-, -, hfails, hwhich⟩
      · omega
      · rcases hwhich with ⟨-, hspent⟩ | ⟨hagrees, hneed⟩
        · exact hspent
        · obtain ⟨f, hf⟩ := Option.ne_none_iff_exists'.mp hfails
          refine Classical.byContradiction fun hne ↦ ?_
          rw [hf] at hne
          exact h ⟨f, hagrees.1.symm.trans hf, fun he ↦ hne (by rw [he]), hneed, hlt⟩
    by_cases hlt : left < M.demand x
    · have hs₁ := hspent _ _ h₁ hlt
      have hs₂ := hspent _ _ h₂ hlt
      refine ⟨hs₁.trans hs₂.symm, fun hnone ↦ ?_⟩
      rw [hs₂] at hnone
      cases hnone
    · rcases hx.run h₁ with ⟨-, rfl⟩ | ⟨hlt₁, -⟩
      · rcases hx.run h₂ with ⟨-, rfl⟩ | ⟨hlt₂, -⟩
        · exact .refl _
        · exact absurd hlt₂ hlt
      · exact absurd hlt₁ hlt

end Metering

end Strand
