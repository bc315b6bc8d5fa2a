import WaferRun.Flow.Parallel
import WaferRun.Lib.Metered

/-!
# Parallel branches and the step budget

The branches of a step charge one counter, the step counter of the chain. Which branch is refused a
charge depends on the interleaving, and a refused branch reports that the budget is exhausted. So
the error of the step can depend on the interleaving, although the step reports the first failure
in the order of declaration.

The executor is an instance of strands that share a meter, and `runParallel_outcome_iff` is the
general answer for it: the outcome depends on the interleaving exactly if the branches fail by
themselves, the budget suffices to reach that failure, and it does not suffice for all of the
branches. The branches are taken to interleave at every charge, every check and every invocation,
and not to make so many charges that the counter wraps around.
-/

open List

namespace WaferRun

open Strand

section Metered

variable {blocks : Call → Reply} {env : StepEnv} {σ C : Type}

def stepMetering (blocks : Call → Reply) (env : StepEnv) :
    Metering Effect Answer StepResult ShortCircuit where
  ans := calm blocks
  isCharge
    | .charge => true
    | .check | .invoke _ => false
  refusal
    | .charge => false
    | .check => .ok
    | .invoke call => blocks call
  failure
    | .ok _ => none
    | .error (stop, _) => some stop
  spent := .error (budgetError env)

@[simp] theorem stepMetering_ans : (stepMetering blocks env).ans = calm blocks := rfl

theorem firstFailure_stepMetering (rs : List StepResult) :
    (stepMetering blocks env).firstFailure rs = firstFailure rs := by
  induction rs with
  | nil => rfl
  | cons r rs ih =>
    rw [Metering.firstFailure_cons, ih]
    cases r <;> rfl

theorem prompt_fork {bs : List (List CompiledStep)} {st : ExecState} {k : ExecState → Run}
    (hbs : ∀ b ∈ bs, (stepMetering blocks env).Prompt
      (runBranchSteps env b (branchState st) fun st ↦ .done (.ok st)))
    (hk : ∀ st, (stepMetering blocks env).Prompt (k st)) :
    (stepMetering blocks env).Prompt (.fork (branchRuns env bs st) (joinBranches st k)) := by
  refine ⟨Metering.promptAll_iff.mpr fun x hx ↦ ?_, fun rs ↦ ?_⟩
  · rw [branchRuns_eq_map] at hx
    obtain ⟨b, hb, rfl⟩ := mem_map.mp hx
    exact hbs b hb
  · rw [firstFailure_stepMetering, joinBranches]
    refine ⟨fun stop hf ↦ ?_, fun hf ↦ ?_⟩
    · rw [hf]
      exact ⟨_, rfl, rfl⟩
    · rw [hf]
      exact hk _

theorem need_pos_of_branch {b : List CompiledStep} (hb : noNextInBranch b = true) {st : ExecState}
    (hfails : (stepMetering blocks env).fails
      (value (calm blocks) (runBranchSteps env b st fun st ↦ .done (.ok st))) = true) :
    0 < (stepMetering blocks env).need
      (runBranchSteps env b st fun st ↦ .done (.ok st)) := by
  cases b with
  | nil => cases hfails
  | cons s ss =>
    rw [noNextInBranch, Bool.and_eq_true, Bool.and_eq_true, Option.isNone_iff_eq_none] at hb
    rw [runBranchSteps, hb.1.1]
    cases s with
    | mk plan p =>
      exact Nat.add_pos_left Nat.one_pos _

theorem preserved_metering : Preserved env True fun _ x ↦
    (stepMetering blocks env).Prompt x ∧ (stepMetering blocks env).Opened x where
  weaken h := h
  done _ := ⟨trivial, trivial⟩
  budget st h := ⟨⟨h.1, fun _ ↦ ⟨_, rfl, rfl⟩⟩, h.2⟩
  check st h := ⟨⟨h.1, fun he ↦ by cases he⟩, h.2⟩
  invoke call k h := ⟨⟨(h _).1, fun he ↦ by cases he⟩, (h _).2⟩
  fork bs st k hnext hbs hk := by
    refine ⟨prompt_fork (fun b hb ↦ (hbs b hb).1) fun st ↦ (hk st).1,
      Metering.openedAll_iff.mpr fun x hx ↦ ?_, ?_⟩
    · rw [branchRuns_eq_map] at hx
      obtain ⟨b, hb, rfl⟩ := mem_map.mp hx
      exact ⟨(hbs b hb).2, need_pos_of_branch (Preserved.noNext_of_mem (hnext trivial) hb)⟩
    · rw [joinBranches]
      split
      · trivial
      · exact (hk _).2

/-! ## The chain and the meter -/

/-- What is left of the budget, by the counter. -/
def TransferChain.left (chain : TransferChain) : ℕ := chain.maxSteps - chain.counter

/-- An answer of a chain that goes on. -/
structure TransferChain.Answered (blocks : Call → Reply) (env : StepEnv) (chain : TransferChain)
    (e : Effect) (a : Answer e) (chain' : TransferChain) : Prop where
  notCancelled : chain.cancelled = false
  answer : a = calm blocks e ∨
    (stepMetering blocks env).isCharge e = true ∧ a = (stepMetering blocks env).refusal e
  used : chain'.stepsUsed =
    chain.stepsUsed + if (stepMetering blocks env).isCharge e then 1 else 0
  /-- The meter gives the same answer. -/
  meter : (stepMetering blocks env).meter chain.left e () =
    some (a, chain.left - (chain'.stepsUsed - chain.stepsUsed))
  maxSteps : chain'.maxSteps = chain.maxSteps

theorem TransferChain.answered (env : StepEnv) {chain chain' : TransferChain} {e : Effect} {now : ℕ}
    {a : Answer e} (h : answerWith blocks chain e now = some (a, chain'))
    (hrunning : chain'.cancelled = false) : chain.Answered blocks env e a chain' := by
  have hfree : ∀ n : ℕ, n = n - (chain.stepsUsed - chain.stepsUsed) := by omega
  cases e with
  | charge =>
    cases h
    by_cases hlt : chain.counter < chain.maxSteps
    · have hgranted := decide_eq_true hlt
      refine ⟨hrunning, .inl hgranted, rfl, ?_, rfl⟩
      have hleft : chain.left = chain.left - 1 + 1 := by
        rw [left]
        omega
      rw [hgranted, Nat.add_sub_cancel_left]
      exact (congrArg (Metering.meter _ · _ ()) hleft).trans (Metering.meter_paid rfl _)
    · have hrefused := decide_eq_false hlt
      refine ⟨hrunning, .inr ⟨rfl, hrefused⟩, rfl, ?_, rfl⟩
      have hleft : chain.left = 0 := by
        rw [left]
        omega
      rw [hrefused, hleft, Nat.zero_sub]
      exact Metering.meter_refused rfl
  | check =>
    simp only [answerWith, answer, check, Option.some.injEq] at h
    split at h
    · rename_i hcan
      cases h
      exact absurd (hcan.symm.trans hrunning) Bool.noConfusion
    · split at h
      · cases h
        cases hrunning
      · cases h
        exact ⟨hrunning, .inl rfl, rfl, congrArg (fun n ↦ some (_, n)) (hfree _), rfl⟩
  | invoke call =>
    cases h
    exact ⟨hrunning, .inl rfl, rfl, congrArg (fun n ↦ some (_, n)) (hfree _), rfl⟩

theorem notCancelled_of_step {chain chain' : TransferChain} {x y : Run}
    (h : Step (TransferChain.answerWith blocks) chain x chain' y)
    (hrunning : chain'.cancelled = false) (env : StepEnv) : chain.cancelled = false :=
  h.state (P := fun c c' ↦ c'.cancelled = false → c.cancelled = false) id
    (fun _ _ _ ha hg ↦ (TransferChain.answered env ha hg).notCancelled) hrunning

/-- A strand whose demand does not bring the counter round to 0. -/
structure Roomy (blocks : Call → Reply) (env : StepEnv) (chain : TransferChain) (x : Run) : Prop where
  prompt : (stepMetering blocks env).Prompt x
  fits : chain.counter + (stepMetering blocks env).demand x < 2 ^ 64

/-- A move of the chain is a move of the meter, and the counter does not wrap around. -/
theorem Roomy.step {chain chain' : TransferChain} {x y : Run} (hx : Roomy blocks env chain x)
    (h : Step (TransferChain.answerWith blocks) chain x chain' y)
    (hrunning : chain'.cancelled = false) :
    Roomy blocks env chain' y ∧ Step (stepMetering blocks env).meter chain.left x chain'.left y ∧
      chain'.left = chain.left - (chain'.stepsUsed - chain.stepsUsed) := by
  obtain ⟨hprompt, hfits⟩ := hx
  have hanswered : ∀ e c a, TransferChain.answerWith blocks chain e c = some (a, chain') →
      chain.Answered blocks env e a chain' := fun _ _ _ ha ↦ TransferChain.answered env ha hrunning
  obtain ⟨hy, hdemand, -⟩ := hprompt.demand_step TransferChain.stepsUsed h
    fun e c a ha ↦ ⟨(hanswered e c a ha).answer, (hanswered e c a ha).used⟩
  obtain ⟨hle, hmax⟩ : chain.stepsUsed ≤ chain'.stepsUsed ∧ chain'.maxSteps = chain.maxSteps :=
    h.state (P := fun c c' ↦ c.stepsUsed ≤ c'.stepsUsed ∧ c'.maxSteps = c.maxSteps)
      ⟨Nat.le_refl _, rfl⟩ fun e c a ha ↦
        ⟨Nat.le.intro (hanswered e c a ha).used.symm, (hanswered e c a ha).maxSteps⟩
  have hcounter : chain'.counter = chain.counter + (chain'.stepsUsed - chain.stepsUsed) := by
    unfold TransferChain.counter at hfits ⊢
    omega
  have hleft : chain'.left = chain.left - (chain'.stepsUsed - chain.stepsUsed) := by
    rw [TransferChain.left, TransferChain.left, hcounter, hmax]
    omega
  refine ⟨⟨hy, by omega⟩, h.map fun e c a ha ↦ ⟨(), ?_⟩, hleft⟩
  rw [hleft]
  exact (hanswered e c a ha).meter

theorem Roomy.steps {chain chain' : TransferChain} {x y : Run} (hx : Roomy blocks env chain x)
    (h : Steps (TransferChain.answerWith blocks) chain x chain' y)
    (hrunning : chain'.cancelled = false) :
    Roomy blocks env chain' y ∧
      Steps (stepMetering blocks env).meter chain.left x chain'.left y := by
  induction h with
  | refl => exact ⟨hx, .refl⟩
  | tail _ hstep ih =>
    obtain ⟨hy, hsteps⟩ := ih (notCancelled_of_step hstep hrunning env)
    obtain ⟨hz, hmove, -⟩ := hy.step hstep hrunning
    exact ⟨hz, hsteps.tail hmove⟩

structure TransferChain.Running (chain : TransferChain) : Prop where
  notCancelled : chain.cancelled = false
  notExpired : chain.expired 0 = false

/-- The clock stands still, so the chain answers as the meter does. -/
theorem TransferChain.Running.exists_answer {chain : TransferChain} (h : chain.Running) (e : Effect) :
    ∃ a chain', answerWith blocks chain e 0 = some (a, chain') ∧ chain'.Running := by
  cases e with
  | charge => exact ⟨_, _, rfl, h.notCancelled, h.notExpired⟩
  | check =>
    exact ⟨.ok, chain, by simp [answerWith, answer, check, h.notCancelled, h.notExpired], h⟩
  | invoke call => exact ⟨_, _, rfl, h⟩

theorem Roomy.exists_step {chain : TransferChain} {x y : Run} (hx : Roomy blocks env chain x)
    (hrunning : chain.Running) {left' : ℕ}
    (h : Step (stepMetering blocks env).meter chain.left x left' y) :
    ∃ chain', Step (TransferChain.answerWith blocks) chain x chain' y ∧ chain'.Running ∧
      chain'.left = left' := by
  let Matches (left : ℕ) (c : TransferChain) : Prop :=
    c.Running ∧ left = chain.left - (c.stepsUsed - chain.stepsUsed)
  have hanswer : ∀ e d a left, (stepMetering blocks env).meter chain.left e d = some (a, left) →
      ∃ n c, TransferChain.answerWith blocks chain e n = some (a, c) ∧ Matches left c := by
    intro e d a left ha
    obtain ⟨a', c, hans, hc⟩ :
        ∃ a c, TransferChain.answerWith blocks chain e 0 = some (a, c) ∧ c.Running :=
      hrunning.exists_answer e
    have hmeter := (TransferChain.answered env hans hc.notCancelled).meter
    rw [ha] at hmeter
    cases hmeter
    exact ⟨0, c, hans, hc, rfl⟩
  have hstart : Matches chain.left chain := ⟨hrunning, by omega⟩
  obtain ⟨chain', hstep, hrunning', hleft⟩ := h.simulate hanswer hstart
  obtain ⟨-, -, hleft'⟩ := hx.step hstep hrunning'.notCancelled
  exact ⟨chain', hstep, hrunning', hleft'.trans hleft.symm⟩

theorem Roomy.exists_steps {chain : TransferChain} {x y : Run} (hx : Roomy blocks env chain x)
    (hrunning : chain.Running) {left' : ℕ}
    (h : Steps (stepMetering blocks env).meter chain.left x left' y) :
    ∃ chain', Steps (TransferChain.answerWith blocks) chain x chain' y ∧ chain'.Running ∧
      Roomy blocks env chain' y ∧ chain'.left = left' := by
  induction h with
  | refl => exact ⟨chain, .refl, hrunning, hx, rfl⟩
  | tail _ hstep ih =>
    obtain ⟨mid, hsteps, hmid, hy, rfl⟩ := ih
    obtain ⟨chain', hmove, hrunning', hleft⟩ := hy.exists_step hmid hstep
    exact ⟨chain', hsteps.tail hmove, hrunning', (hy.step hmove hrunning'.notCancelled).1, hleft⟩

/-! ## The outcome -/

theorem eq_of_parallelRun {handle : Handler Effect Answer σ C} {s t : σ}
    {bs : List (List CompiledStep)} {st : ExecState} {stop : ShortCircuit} {st' : ExecState}
    (h : Steps handle s (parallelRun env bs st) t (.done (.error (stop, st')))) : st' = st := by
  rw [parallelRun, runParallel] at h
  obtain ⟨u, rs, hrun⟩ := h.exists_join
  rw [joinBranches] at hrun
  split at hrun <;> cases hrun.eq_of_done
  rfl

def branchRun (env : StepEnv) (st : ExecState) (b : List CompiledStep) : Run :=
  runBranchSteps env b (branchState st) fun st ↦ .done (.ok st)

/-- The charges of some branches when each of them runs by itself, without limits. -/
def charges (blocks : Call → Reply) (env : StepEnv) (st : ExecState)
    (bs : List (List CompiledStep)) : ℕ :=
  (stepMetering blocks env).demandAll (bs.map (branchRun env st))

/-- Branches that contend for the budget: the first branch that fails by itself fails with an error
that is not the error of the budget, the budget suffices for the branches before it and up to its
failure, and it does not suffice for all of the branches. -/
def Contended (blocks : Call → Reply) (env : StepEnv) (bs : List (List CompiledStep))
    (st : ExecState) (budget : ℕ) : Prop :=
  ∃ before b after stop own, bs = before ++ b :: after ∧
    (∀ c ∈ before, ∃ own, value (calm blocks) (branchRun env st c) = .ok own) ∧
    value (calm blocks) (branchRun env st b) = .error (stop, own) ∧
    stop ≠ .error (budgetError env) ∧
    charges blocks env st before + (stepMetering blocks env).need (branchRun env st b) ≤ budget ∧
    budget < charges blocks env st bs

theorem parallelRun_eq (bs : List (List CompiledStep)) (st : ExecState) :
    parallelRun env bs st =
      .fork (bs.map (branchRun env st)) (joinBranches st fun st ↦ .done (.ok st)) := by
  rw [parallelRun, runParallel, branchRuns_eq_map]
  rfl

theorem joinBranches_done (blocks : Call → Reply) (env : StepEnv) (st : ExecState)
    (rs : List StepResult) :
    (stepMetering blocks env).need (joinBranches st (fun st ↦ .done (.ok st)) rs) = 0 ∧
    (stepMetering blocks env).demand (joinBranches st (fun st ↦ .done (.ok st)) rs) = 0 ∧
    (stepMetering blocks env).failure
      (value (calm blocks) (joinBranches st (fun st ↦ .done (.ok st)) rs)) = firstFailure rs := by
  rw [joinBranches]
  split
  · rename_i stop h
    exact ⟨rfl, rfl, h.symm⟩
  · rename_i h
    exact ⟨rfl, rfl, h.symm⟩

theorem firstFailure_eq_none {rs : List StepResult} :
    (stepMetering blocks env).firstFailure rs = none ↔ ∀ r ∈ rs, ∃ own, r = .ok own := by
  rw [Metering.firstFailure, List.findSome?_eq_none_iff]
  refine forall₂_congr fun r _ ↦ ?_
  cases r with
  | ok own => exact ⟨fun _ ↦ ⟨own, rfl⟩, fun _ ↦ rfl⟩
  | error e =>
    refine iff_of_false (fun h ↦ (by cases h)) ?_
    rintro ⟨own, h⟩
    cases h

theorem parallelRun_metering (blocks : Call → Reply) (env : StepEnv)
    (bs : List (List CompiledStep)) (st : ExecState) :
    (stepMetering blocks env).need (parallelRun env bs st) =
      (stepMetering blocks env).needAll (bs.map (branchRun env st)) ∧
    (stepMetering blocks env).demand (parallelRun env bs st) = charges blocks env st bs ∧
    (stepMetering blocks env).failure (value (calm blocks) (parallelRun env bs st)) =
      (stepMetering blocks env).firstFailure
        ((bs.map (branchRun env st)).map (value (calm blocks))) := by
  obtain ⟨hneed, hdemand, hfail⟩ := joinBranches_done blocks env st
    ((bs.map (branchRun env st)).map (value (calm blocks)))
  rw [parallelRun_eq, Metering.need_fork, Metering.demand_fork, value_fork,
    firstFailure_stepMetering]
  exact ⟨congrArg _ hneed, congrArg _ hdemand, hfail⟩

theorem needAll_of_first_failure {before after : List (List CompiledStep)} {b : List CompiledStep}
    {st : ExecState} (hprompt : (stepMetering blocks env).Prompt
      (parallelRun env (before ++ b :: after) st))
    (hbefore : (stepMetering blocks env).firstFailure
      ((before.map (branchRun env st)).map (value (calm blocks))) = none)
    (hb : (stepMetering blocks env).fails (value (calm blocks) (branchRun env st b)) = true) :
    (stepMetering blocks env).needAll ((before ++ b :: after).map (branchRun env st)) =
      charges blocks env st before + (stepMetering blocks env).need (branchRun env st b) := by
  rw [parallelRun_eq] at hprompt
  have hok : (stepMetering blocks env).needAll (before.map (branchRun env st)) =
      charges blocks env st before := by
    refine Metering.needAll_eq_demandAll hbefore fun c hc hnone ↦ ?_
    refine (hprompt.of_mem ?_).need_eq_demand hnone
    rw [map_append]
    exact mem_append_left _ hc
  rw [map_append, map_cons, Metering.needAll_mid, hok, stepMetering_ans, hbefore,
    if_pos hb, Nat.add_zero]
  rfl

/-- Contention, as the meter sees it. -/
theorem contended_iff {bs : List (List CompiledStep)} {st : ExecState} {budget : ℕ}
    (hprompt : (stepMetering blocks env).Prompt (parallelRun env bs st)) :
    Contended blocks env bs st budget ↔
      ∃ stop, (stepMetering blocks env).failure (value (calm blocks) (parallelRun env bs st)) =
          some stop ∧ stop ≠ .error (budgetError env) ∧
        (stepMetering blocks env).need (parallelRun env bs st) ≤ budget ∧
        budget < (stepMetering blocks env).demand (parallelRun env bs st) := by
  obtain ⟨hneed, hdemand, hfail⟩ := parallelRun_metering blocks env bs st
  rw [hneed, hdemand, hfail]
  constructor
  · rintro ⟨before, b, after, stop, own, rfl, hbefore, hb, hstop, hle, hlt⟩
    have hnone : (stepMetering blocks env).firstFailure
        ((before.map (branchRun env st)).map (value (calm blocks))) = none := by
      rw [firstFailure_eq_none]
      simpa using hbefore
    have hfails : (stepMetering blocks env).fails (value (calm blocks) (branchRun env st b)) =
        true := by
      rw [hb]
      rfl
    rw [needAll_of_first_failure hprompt hnone hfails]
    refine ⟨stop, ?_, hstop, hle, hlt⟩
    rw [map_append, map_append, Metering.firstFailure_append, hnone, map_cons,
      map_cons, Metering.firstFailure_cons, hb]
    rfl
  · rintro ⟨stop, hstop, hne, hle, hlt⟩
    obtain ⟨l, x, q, heq, hl, hx⟩ := Metering.exists_first_failure hstop
    obtain ⟨before, tail, rfl, rfl, htail⟩ := map_eq_append_iff.mp heq
    obtain ⟨b, after, rfl, rfl, rfl⟩ := map_eq_cons_iff.mp htail
    rw [stepMetering_ans] at hx
    obtain ⟨own, hb⟩ : ∃ own, value (calm blocks) (branchRun env st b) = .error (stop, own) := by
      generalize value (calm blocks) (branchRun env st b) = r at hx
      cases r with
      | ok own => cases hx
      | error e =>
        cases hx
        exact ⟨e.2, rfl⟩
    rw [needAll_of_first_failure hprompt hl (by rw [hb]; rfl)] at hle
    refine ⟨before, b, after, stop, own, rfl, ?_, hb, hne, hle, hlt⟩
    simpa using firstFailure_eq_none.mp hl

theorem eq_iff_agrees {handle : Handler Effect Answer σ C} {s t t' : σ}
    {bs : List (List CompiledStep)} {st : ExecState} {r r' : StepResult}
    (h : Steps handle s (parallelRun env bs st) t (.done r))
    (h' : Steps handle s (parallelRun env bs st) t' (.done r')) :
    (stepMetering blocks env).Agrees r r' ↔ r = r' := by
  constructor
  · rintro ⟨hfail, hok⟩
    cases r' with
    | ok st' => exact hok rfl
    | error e' =>
      cases r with
      | ok st'' => cases hfail
      | error e =>
        obtain ⟨stop, st₁⟩ := e
        obtain ⟨stop', st₂⟩ := e'
        cases hfail
        rw [eq_of_parallelRun h, eq_of_parallelRun h']
  · rintro rfl
    exact .refl r

/-- **When the interleaving decides the outcome of parallel branches.** As long as the branches do
not bring the counter round to 0, two interleavings that the deadline does not stop always end alike,
exactly if the branches do not contend for the budget. -/
theorem runParallel_outcome_iff {steps : List CompiledStep} (hv : Validated steps)
    {plan : StepPlan} {bs : List (List CompiledStep)} (hmem : .mk plan (some bs) ∈ steps)
    (blocks : Call → Reply) (env : StepEnv) (st : ExecState) {chain : TransferChain}
    (hrunning : chain.Running) (hfits : chain.counter + charges blocks env st bs < 2 ^ 64) :
    (∀ as₁ chain₁ r₁ as₂ chain₂ r₂,
      Actions.run (move (TransferChain.answerWith blocks)) (chain, parallelRun env bs st) as₁ =
        some (chain₁, .done r₁) → chain₁.cancelled = false →
      Actions.run (move (TransferChain.answerWith blocks)) (chain, parallelRun env bs st) as₂ =
        some (chain₂, .done r₂) → chain₂.cancelled = false → r₁ = r₂) ↔
    ¬Contended blocks env bs st chain.left := by
  have hnext : noNextInBranchList bs = true := hv.noNext _ hmem
  have hpieces : (stepMetering blocks env).Prompt (parallelRun env bs st) ∧
      (stepMetering blocks env).Opened (parallelRun env bs st) :=
    preserved_metering.runParallel (n := 0) (fun _ ↦ hnext) fun _ ↦ ⟨trivial, trivial⟩
  obtain ⟨hprompt, hopened⟩ := hpieces
  have hroomy : Roomy blocks env chain (parallelRun env bs st) :=
    ⟨hprompt, (parallelRun_metering blocks env bs st).2.1 ▸ hfits⟩
  rw [contended_iff hprompt]
  refine Iff.trans ?_ (Metering.outcome_unique_iff hprompt hopened chain.left)
  constructor
  · intro h left₁ r₁ left₂ r₂ h₁ h₂
    obtain ⟨chain₁, hsteps₁, hrun₁, -⟩ := hroomy.exists_steps hrunning h₁
    obtain ⟨chain₂, hsteps₂, hrun₂, -⟩ := hroomy.exists_steps hrunning h₂
    obtain ⟨as₁, has₁⟩ := hsteps₁.exists_run
    obtain ⟨as₂, has₂⟩ := hsteps₂.exists_run
    exact (eq_iff_agrees h₁ h₂).mpr
      (h as₁ chain₁ r₁ as₂ chain₂ r₂ has₁ hrun₁.notCancelled has₂ hrun₂.notCancelled)
  · intro h as₁ chain₁ r₁ as₂ chain₂ r₂ has₁ hrun₁ has₂ hrun₂
    obtain ⟨-, h₁⟩ := hroomy.steps (steps_of_run has₁) hrun₁
    obtain ⟨-, h₂⟩ := hroomy.steps (steps_of_run has₂) hrun₂
    exact (eq_iff_agrees h₁ h₂).mp (h _ r₁ _ r₂ h₁ h₂)

end Metered

/-! ## A race for the last unit

Two branches of two steps each share a budget of three, and the second step of the first branch
fails. Both branches start their first step. If the first branch gets the last unit, its failure is
reported; if the second branch gets it, the first one reports that the budget is exhausted. -/

namespace RaceFlow

def refused : WaferError := .new .permissionDenied "refused"

def blocks (call : Call) : Reply :=
  if call.target = "org/deny" then .ok (.ofEvents [.error refused])
  else .ok (.ofEvents [.continue call.msg])

def branches : List (List CompiledStep) :=
  [[.mk (RetryFlow.plainStep "a1" "org/pass") none, .mk (RetryFlow.plainStep "a2" "org/deny") none],
   [.mk (RetryFlow.plainStep "b1" "org/pass") none, .mk (RetryFlow.plainStep "b2" "org/pass") none]]

def fan : CompiledStep := .mk (RetryFlow.plainStep "fan" "org/pass") (some branches)

def flow (maxSteps : ℕ) : CompiledFlow where
  id := "race"
  timeout := none
  maxSteps := maxSteps
  onError := .stop
  usesAccumulator := false
  steps := [fan]

theorem validated : Validated [fan] where
  nodup := by decide
  reserved := by decide
  noNext := by decide

def env (maxSteps : ℕ) : StepEnv := ⟨flow maxSteps, RetryFlow.host, maxSteps⟩

def start : ExecState := ⟨.new, [], ⟨"http.request", []⟩, fun _ ↦ none⟩

def chain (maxSteps : ℕ) : TransferChain := (TransferChain.new.enter (flow maxSteps) 0).charge.2

def firstAhead : List (List ℕ × ℕ) :=
  [[0], [0], [0], [1], [1], [1], [0], [0], [0], [0], [0], [1], [1], []].map fun p ↦ (p, 0)

def secondAhead : List (List ℕ × ℕ) :=
  [[0], [0], [0], [1], [1], [1], [1], [1], [1], [1], [1], [0], [0], []].map fun p ↦ (p, 0)

end RaceFlow

open RaceFlow in
/-- With enough budget for all four steps, no interleaving changes the outcome. -/
theorem runParallel_outcome_iff_enough :
    (chain 5).Running ∧
    ∀ as₁ chain₁ r₁ as₂ chain₂ r₂,
      Actions.run (move (TransferChain.answerWith blocks))
        (chain 5, parallelRun (env 5) branches start) as₁ = some (chain₁, .done r₁) →
      chain₁.cancelled = false →
      Actions.run (move (TransferChain.answerWith blocks))
        (chain 5, parallelRun (env 5) branches start) as₂ = some (chain₂, .done r₂) →
      chain₂.cancelled = false → r₁ = r₂ := by
  refine ⟨⟨rfl, rfl⟩, (runParallel_outcome_iff validated mem_cons_self blocks (env 5) start
    ⟨rfl, rfl⟩ (by decide)).mpr ?_⟩
  rintro ⟨-, -, -, -, -, -, -, -, -, -, hlt⟩
  have hcharges : charges blocks (env 5) start branches = 4 := rfl
  rw [hcharges] at hlt
  exact absurd hlt (by decide)

open RaceFlow in
/-- **Two interleavings report two errors.** -/
theorem outcome_depends_on_interleaving :
    Validated (flow 4).steps ∧ fan ∈ (flow 4).steps ∧ (chain 4).Running ∧
    ∃ chain₁ chain₂,
      Actions.run (move (TransferChain.answerWith blocks))
        (chain 4, parallelRun (env 4) branches start) firstAhead =
        some (chain₁, .done (.error (.error refused, start))) ∧ chain₁.cancelled = false ∧
      Actions.run (move (TransferChain.answerWith blocks))
        (chain 4, parallelRun (env 4) branches start) secondAhead =
        some (chain₂, .done (.error (.error (budgetError (env 4)), start))) ∧
      chain₂.cancelled = false ∧ refused ≠ budgetError (env 4) := by
  refine ⟨validated, mem_cons_self, ⟨rfl, rfl⟩, _, _, rfl, rfl, rfl, rfl, fun h ↦ ?_⟩
  cases congrArg WaferError.code h

end WaferRun
