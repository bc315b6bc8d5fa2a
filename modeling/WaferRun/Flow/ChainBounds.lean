import WaferRun.Flow.Chain
import WaferRun.Lib.Obligations

/-!
# A chain of flows ends within its budget

A chain may jump back to an earlier step, fan out over arrays, run nested branches and transfer
between flows in a circle. It ends all the same, because every step and every item of a fan-out is
charged to one counter that no transfer resets.

* The chain ends: a step starts with a charge, so between two charges only one strand runs, and a
  strand always ends. Once the counter has reached the limit the next charge is refused.
* Every invocation of a block is paid for by a charge that was granted.
* A refused charge, a cancellation or a passed deadline stops the chain at the step it happened in,
  whatever the flow says about errors.

The counter has 64 bits. It can only wrap around after a charge was refused, so while a step that
has failed waits for its other branches. Those are then granted charges again
(`step_started_after_wraparound`).

`runPlan_withinBudget` puts these together for every state a request can bring a chain to.
-/

open List

namespace WaferRun

open Strand

/-! ## What the effects of a chain count for -/

def invocationCost : Effect → ℕ
  | .charge | .check => 0
  | .invoke _ => 1

def grant : ∀ e, Answer e → ℕ
  | .charge, granted => granted.toNat
  | .check, _ | .invoke _, _ => 0

def chargeCost : Effect → ℕ
  | .charge => 1
  | .check | .invoke _ => 0

def invocations (trace : List (Σ e, Answer e)) : ℕ := paid invocationCost trace

def grants (trace : List (Σ e, Answer e)) : ℕ := earned grant trace

def attempts (trace : List (Σ e, Answer e)) : ℕ := paid chargeCost trace

/-- The answers that stop a strand: an exhausted budget, a cancellation, a passed deadline. -/
def Refusal : ∀ e, Answer e → Prop
  | .charge, granted => granted = false
  | .check, answer => answer ≠ .ok
  | .invoke _, _ => False

def Refused (trace : List (Σ e, Answer e)) : Prop := ∃ p ∈ trace, Refusal p.1 p.2

def Failed (r : StepResult) : Prop := ∃ stop st, r = .error (stop, st)

theorem preserved_funded (env : StepEnv) :
    Preserved env False fun n x ↦ Funded invocationCost grant x n where
  weaken h := h.mono (Nat.le_succ _)
  done _ := trivial
  budget st h := by
    refine ⟨Nat.zero_le _, fun granted ↦ ?_⟩
    cases granted with
    | false => trivial
    | true => exact h
  check st h := by
    refine ⟨Nat.zero_le _, fun answer ↦ ?_⟩
    cases answer with
    | ok => exact h
    | cancelled => trivial
    | timedOut => trivial
  invoke call k h := ⟨Nat.le_add_left _ _, h⟩
  fork bs st k _ hbs hk := by
    refine ⟨0, _, (Nat.zero_add _).symm, fundedAll_zero fun x hx ↦ ?_, fun rs ↦ ?_⟩
    · rw [branchRuns_eq_map] at hx
      obtain ⟨b, hb, rfl⟩ := mem_map.mp hx
      exact hbs b hb
    · rw [joinBranches]
      split
      · trivial
      · exact hk _

theorem firstFailure_isSome {rs : List StepResult} (h : ∃ r ∈ rs, Failed r) :
    ∃ stop, firstFailure rs = some stop := by
  induction rs with
  | nil =>
    obtain ⟨r, hr, -⟩ := h
    exact absurd hr not_mem_nil
  | cons r rs ih =>
    cases r with
    | error e => exact ⟨e.1, rfl⟩
    | ok own =>
      obtain ⟨r, hr, stop, st, rfl⟩ := h
      rcases mem_cons.mp hr with heq | hr
      · cases heq
      · exact ih ⟨_, hr, stop, st, rfl⟩

theorem preserved_strict (env : StepEnv) :
    Preserved env False fun _ x ↦ Strict Refusal Failed x where
  weaken h := h
  done r := .done r
  budget st h := by
    refine .perform (fun granted ↦ ?_) fun granted hbad ↦ ?_
    · cases granted with
      | false => exact .done _
      | true => exact h
    · cases granted with
      | false => exact .done ⟨_, _, rfl⟩
      | true => cases hbad
  check st h := by
    refine .perform (fun answer ↦ ?_) fun answer hbad ↦ ?_
    · cases answer with
      | ok => exact h
      | cancelled => exact .done _
      | timedOut => exact .done _
    · cases answer with
      | ok => exact absurd rfl hbad
      | cancelled => exact .done ⟨_, _, rfl⟩
      | timedOut => exact .done ⟨_, _, rfl⟩
  invoke call k h := .perform h fun _ hbad ↦ hbad.elim
  fork bs st k _ hbs hk := by
    refine .fork (fun x hx ↦ ?_) (fun rs ↦ ?_) fun rs hfail ↦ ?_
    · rw [branchRuns_eq_map] at hx
      obtain ⟨b, hb, rfl⟩ := mem_map.mp hx
      exact hbs b hb
    · rw [joinBranches]
      split
      · exact .done _
      · exact hk _
    · obtain ⟨stop, hstop⟩ := firstFailure_isSome hfail
      rw [joinBranches, hstop]
      exact .done ⟨_, _, rfl⟩

/-! ## The moves of a chain -/

inductive ChainMove (wafer : String → Option CompiledFlow) (host : Host) (s : ChainState) :
    ChainState → Prop
  | enter {flow msg input record} (now : ℕ) (h : s.phase = .entering flow msg input record) :
      ChainMove wafer host s
        { s with
          chain := s.chain.enter flow now
          entered := flow :: s.entered
          phase := startFlow host (s.chain.enter flow now) flow msg input record }
  | work {flow current routed run t y} (h : s.phase = .running flow current routed run)
      (hstep : Step (traced TransferChain.answer) (s.chain, s.trace) run t y) :
      ChainMove wafer host s
        { s with chain := t.1, trace := t.2, phase := .running flow current routed y }
  | stop {flow current routed stop st}
      (h : s.phase = .running flow current routed (.done (.error (stop, st)))) :
      ChainMove wafer host s { s with phase := .finished (stop.intoOutput host st) }
  | advance {flow current routed st} {step : CompiledStep}
      (h : s.phase = .running flow current routed (.done (.ok st)))
      (hstep : flow.steps[current]? = some step) :
      ChainMove wafer host s
        { s with phase := afterStep wafer host s.chain flow current routed step.plan st }

section Moves

variable {wafer : String → Option CompiledFlow} {host : Host} {s t : ChainState}

theorem chainMove_of_step {a : ChainAct} (h : chainStep wafer host s a = some t) :
    ChainMove wafer host s t := by
  cases a with
  | enter now =>
    rw [chainStep] at h
    split at h
    · rename_i hphase
      cases h
      exact .enter now hphase
    · cases h
  | work position moment =>
    rw [chainStep] at h
    split at h
    · rename_i hphase
      obtain ⟨⟨⟨chain, trace⟩, y⟩, hstep, heq⟩ := Option.map_eq_some_iff.mp h
      cases heq
      exact .work hphase (step_of_stepAt hstep)
    · cases h
  | advance =>
    rw [chainStep] at h
    split at h
    · rename_i hphase
      cases h
      exact .stop hphase
    · rename_i hphase
      obtain ⟨step, hstep, heq⟩ := Option.map_eq_some_iff.mp h
      cases heq
      exact .advance hphase hstep
    · cases h

/-- A phase in which nothing has been performed yet: the flow has ended, or a step is about to be
charged. -/
inductive Phase.Started : Phase → Prop
  | running {flow current routed step env mode st} (h : flow.steps[current]? = some step) :
      Started (.running flow current routed (runStep env step mode st fun st ↦ .done (.ok st)))
  | finished (output : OutputStream) : Started (.finished output)

theorem started_startStep (chain : TransferChain) (flow : CompiledFlow) (current : ℕ)
    (routed : Bool) (st : ExecState) : (startStep host chain flow current routed st).Started := by
  rw [startStep]
  split
  · exact .finished _
  · rename_i hstep
    exact .running hstep

theorem started_startFlow (chain : TransferChain) (flow : CompiledFlow) (msg : Message)
    (input : Except WaferError Bytes) (record : ResponderRecord) :
    (startFlow host chain flow msg input record).Started := by
  cases input with
  | error err => exact .finished _
  | ok body => exact started_startStep _ _ _ _ _

/-- After a step the flow has ended, another step is about to be charged, or the chain transfers. -/
theorem started_afterStep (chain : TransferChain) (flow : CompiledFlow) (current : ℕ)
    (routed : Bool) (step : StepPlan) (st : ExecState) :
    (afterStep wafer host chain flow current routed step st).Started ∨
      ∃ target, afterStep wafer host chain flow current routed step st =
        .entering target st.msg (.ok st.body) st.responderRecord := by
  rw [afterStep]
  split
  · split
    · exact .inl (.finished _)
    · exact .inl (started_startStep _ _ _ _ _)
  · split
    · exact .inl (.finished _)
    · exact .inl (started_startStep _ _ _ _ _)
    · exact .inl (.finished _)
    · split
      · exact .inl (.finished _)
      · exact .inr ⟨_, rfl⟩
    · exact .inl (started_startStep _ _ _ _ _)
    · exact .inl (started_startStep _ _ _ _ _)

theorem runStep_eq_checkBudget (env : StepEnv) (step : CompiledStep) (mode : ResponseMode)
    (st : ExecState) (k : ExecState → Run) :
    ∃ k', runStep env step mode st k = checkBudget env st k' := by
  cases step with
  | mk plan p => exact ⟨_, rfl⟩

/-! ## The limits of the chain -/

/-- Limits that are at most those of an earlier state, and a counter that is at least its counter.
-/
structure TransferChain.Tightened (chain chain' : TransferChain) : Prop where
  maxSteps : chain'.maxSteps ≤ chain.maxSteps
  deadline : ∀ d, chain.deadline = some d → ∃ d', chain'.deadline = some d' ∧ d' ≤ d
  stepsUsed : chain.stepsUsed ≤ chain'.stepsUsed

theorem TransferChain.Tightened.refl (chain : TransferChain) : chain.Tightened chain :=
  ⟨le_rfl, fun d h ↦ ⟨d, h, le_rfl⟩, le_rfl⟩

theorem TransferChain.Tightened.trans {c c' c'' : TransferChain} (h : c.Tightened c')
    (h' : c'.Tightened c'') : c.Tightened c'' := by
  refine ⟨h'.maxSteps.trans h.maxSteps, fun d hd ↦ ?_, h.stepsUsed.trans h'.stepsUsed⟩
  obtain ⟨d', hd', hle⟩ := h.deadline d hd
  obtain ⟨d'', hd'', hle'⟩ := h'.deadline d' hd'
  exact ⟨d'', hd'', hle'.trans hle⟩

theorem TransferChain.tightened_enter (chain : TransferChain) (flow : CompiledFlow) (now : ℕ) :
    chain.Tightened (chain.enter flow now) := by
  refine ⟨min_le_left _ _, fun d hd ↦ ?_, le_rfl⟩
  rw [enter]
  cases flow.timeout with
  | none => exact ⟨d, hd, le_rfl⟩
  | some timeout =>
    refine ⟨_, rfl, ?_⟩
    rw [hd]
    exact min_le_left _ _

/-- What an answer does to the chain: it keeps the limits, counts a charge, and grants one only
while the counter is below the limit. -/
theorem TransferChain.answer_spec {chain chain' : TransferChain} {e : Effect} {m : Moment}
    {a : Answer e} (h : answer chain e m = some (a, chain')) :
    chain'.maxSteps = chain.maxSteps ∧ chain'.deadline = chain.deadline ∧
      chain'.stepsUsed = chain.stepsUsed + chargeCost e ∧
      (grant e a = 0 ∧ (chargeCost e = 0 ∨ Refusal e a) ∨
        chargeCost e = 1 ∧ chain.counter < chain.maxSteps) := by
  cases e with
  | charge =>
    have hcharge : some chain.charge = some (a, chain') := h
    obtain ⟨hgranted, rfl⟩ := Prod.mk.inj (Option.some.inj hcharge)
    refine ⟨rfl, rfl, rfl, ?_⟩
    cases a with
    | true => exact .inr ⟨rfl, of_decide_eq_true hgranted⟩
    | false => exact .inl ⟨rfl, .inr rfl⟩
  | check =>
    simp only [answer, check, Option.some.injEq] at h
    split at h
    · cases h
      exact ⟨rfl, rfl, rfl, .inl ⟨rfl, .inl rfl⟩⟩
    · split at h
      · cases h
        exact ⟨rfl, rfl, rfl, .inl ⟨rfl, .inl rfl⟩⟩
      · cases h
        exact ⟨rfl, rfl, rfl, .inl ⟨rfl, .inl rfl⟩⟩
  | invoke call =>
    cases h
    exact ⟨rfl, rfl, rfl, .inl ⟨rfl, .inl rfl⟩⟩

/-- What a move of a strand does to the chain and its trace. -/
structure Worked (p q : TransferChain × List (Σ e, Answer e)) : Prop where
  maxSteps : q.1.maxSteps = p.1.maxSteps
  deadline : q.1.deadline = p.1.deadline
  subset : p.2 ⊆ q.2
  attempts : ∃ n, q.1.stepsUsed = p.1.stepsUsed + n ∧ attempts q.2 = attempts p.2 + n
  granted : grants q.2 = grants p.2 ∧ (q.1.stepsUsed = p.1.stepsUsed ∨ Refused q.2) ∨
    q.1.stepsUsed = p.1.stepsUsed + 1 ∧ p.1.counter < p.1.maxSteps

theorem worked_of_step {p q : TransferChain × List (Σ e, Answer e)} {x y : Run}
    (h : Step (traced TransferChain.answer) p x q y) : Worked p q := by
  refine h.state (P := Worked) ⟨rfl, rfl, List.Subset.refl _, ⟨0, rfl, rfl⟩,
    .inl ⟨rfl, .inl rfl⟩⟩ fun e m a ha ↦ ?_
  obtain ⟨hans, htrace⟩ := traced_eq_some.mp ha
  obtain ⟨hmax, hdeadline, hused, hgrant⟩ := TransferChain.answer_spec hans
  refine ⟨hmax, hdeadline, ?_, ⟨chargeCost e, hused, ?_⟩, ?_⟩
  · rw [htrace]
    exact subset_cons_self _ _
  · rw [htrace, Nat.add_comm]
    exact sum_cons
  · rw [hused, htrace]
    refine hgrant.imp (fun ⟨hzero, hwhy⟩ ↦ ⟨?_, ?_⟩) fun ⟨hone, hlt⟩ ↦ ⟨by rw [hone], hlt⟩
    · rw [grants, earned, map_cons, sum_cons, hzero, Nat.zero_add]
      rfl
    · exact hwhy.imp (fun hcost ↦ by rw [hcost, Nat.add_zero])
        fun hbad ↦ ⟨_, mem_cons_self, hbad⟩

theorem Worked.tightened {p q : TransferChain × List (Σ e, Answer e)} (h : Worked p q) :
    p.1.Tightened q.1 := by
  obtain ⟨n, hn, -⟩ := h.attempts
  refine ⟨h.maxSteps.le, fun d hd ↦ ⟨d, h.deadline.trans hd, le_rfl⟩, ?_⟩
  rw [hn]
  exact Nat.le_add_right _ _

theorem ChainMove.tightened (h : ChainMove wafer host s t) : s.chain.Tightened t.chain := by
  cases h with
  | enter now h => exact TransferChain.tightened_enter _ _ _
  | work h hstep => exact (worked_of_step hstep).tightened
  | stop h => exact .refl _
  | advance h hstep => exact .refl _

/-! ## What holds in every state -/

theorem Refused.mono {trace trace' : List (Σ e, Answer e)} (h : Refused trace)
    (hsub : trace ⊆ trace') : Refused trace' := by
  obtain ⟨p, hp, hbad⟩ := h
  exact ⟨p, hsub hp, hbad⟩

def smallest (entered : List CompiledFlow) : ℕ :=
  entered.foldr (fun flow bound ↦ min bound flow.maxSteps) (2 ^ 64 - 1)

theorem smallest_le {entered : List CompiledFlow} {flow : CompiledFlow} (h : flow ∈ entered) :
    smallest entered ≤ flow.maxSteps := by
  induction entered with
  | nil => exact absurd h not_mem_nil
  | cons f entered ih =>
    rcases mem_cons.mp h with rfl | h
    · exact min_le_right _ _
    · exact (min_le_left _ _).trans (ih h)

theorem smallest_lt (entered : List CompiledFlow) : smallest entered < 2 ^ 64 := by
  induction entered with
  | nil => exact Nat.sub_lt (by decide) Nat.one_pos
  | cons f entered ih => exact (min_le_left _ _).trans_lt ih

/-- What the trace says about the phase: the current strand is funded by what is left of the granted
charges, and after a refusal nothing but a failure is to come. -/
def PhaseSound (host : Host) (trace : List (Σ e, Answer e)) : Phase → Prop
  | .entering .. => ¬Refused trace
  | .running flow current _ run =>
    (∃ step, flow.steps[current]? = some step) ∧
    (∃ n, Funded invocationCost grant run n ∧ n + invocations trace = grants trace) ∧
    Strict Refusal Failed run ∧ (Refused trace → Doomed Failed run)
  | .finished output => Refused trace → ∃ stop st, output = ShortCircuit.intoOutput host st stop

structure ChainState.Sound (host : Host) (s : ChainState) : Prop where
  used : s.chain.stepsUsed = attempts s.trace
  /-- The counter does not wrap around before a charge has been refused. -/
  room : ¬Refused s.trace → s.chain.stepsUsed < 2 ^ 64
  limit : s.chain.maxSteps = smallest s.entered
  paid : invocations s.trace ≤ grants s.trace
  phase : PhaseSound host s.trace s.phase

theorem Phase.Started.sound {phase : Phase} (h : phase.Started) {trace : List (Σ e, Answer e)}
    (hpaid : invocations trace ≤ grants trace) (hno : ¬Refused trace) :
    PhaseSound host trace phase := by
  cases h with
  | finished output => exact fun hr ↦ absurd hr hno
  | @running flow current routed step env mode st hstep =>
    have hfunded := (preserved_funded env).runStep step False.elim (n := 0) mode st
      (fun st ↦ .done (.ok st)) fun st ↦ trivial
    have hstrict := (preserved_strict env).runStep step False.elim (n := 0) mode st
      (fun st ↦ .done (.ok st)) fun st ↦ .done _
    refine ⟨⟨step, hstep⟩, ⟨_, hfunded.mono (Nat.zero_le (grants trace - invocations trace)), ?_⟩,
      hstrict, fun hr ↦ absurd hr hno⟩
    omega

theorem not_refused_of_ok {trace : List (Σ e, Answer e)} {flow : CompiledFlow} {current : ℕ}
    {routed : Bool} {st : ExecState}
    (h : PhaseSound host trace (.running flow current routed (.done (.ok st)))) :
    ¬Refused trace := by
  intro hr
  obtain ⟨stop, st', heq⟩ := (h.2.2.2 hr).fails_of_done
  cases heq

theorem PhaseSound.step {p q : TransferChain × List (Σ e, Answer e)} {x y : Run}
    {flow : CompiledFlow} {current : ℕ} {routed : Bool}
    (h : PhaseSound host p.2 (.running flow current routed x))
    (hstep : Step (traced TransferChain.answer) p x q y) :
    PhaseSound host q.2 (.running flow current routed y) := by
  obtain ⟨hsome, ⟨n, hfunded, hn⟩, hstrict, hdoomed⟩ := h
  obtain ⟨m, hfunded', hm⟩ := hfunded.step hstep
  obtain ⟨hstrict', hkeep, hnew⟩ := hstrict.step hstep
  refine ⟨hsome, ⟨m, hfunded', ?_⟩, hstrict', fun hr ↦ ?_⟩
  · rw [invocations, grants] at hn ⊢
    omega
  · rcases hnew with hsame | ⟨e, a, hq, hbad⟩
    · rw [hsame] at hr
      exact hkeep (hdoomed hr)
    · obtain ⟨r, hmem, hrefusal⟩ := hr
      rw [hq] at hmem
      rcases mem_cons.mp hmem with rfl | hmem
      · exact hbad hrefusal
      · exact hkeep (hdoomed ⟨r, hmem, hrefusal⟩)

theorem ChainState.Sound.move (hs : s.Sound host) (h : ChainMove wafer host s t) :
    t.Sound host := by
  obtain ⟨hused, hroom, hlimit, hpaid, hphase⟩ := hs
  cases h with
  | enter now h =>
    rw [h] at hphase
    refine ⟨hused, hroom, ?_, hpaid, (started_startFlow _ _ _ _ _).sound hpaid hphase⟩
    exact congrArg (min · _) hlimit
  | work h hstep =>
    rw [h] at hphase
    have hphase' := PhaseSound.step hphase hstep
    have hworked := worked_of_step hstep
    refine ⟨?_, fun hno ↦ ?_, hworked.maxSteps.trans hlimit, ?_, hphase'⟩
    · obtain ⟨n, hq, hn⟩ := hworked.attempts
      exact hq.trans ((congrArg (· + n) hused).trans hn.symm)
    · have hlt := hroom fun hr ↦ hno (hr.mono hworked.subset)
      rcases hworked.granted with ⟨-, hsame | hr⟩ | ⟨hone, hbelow⟩
      · exact hsame.trans_lt hlt
      · exact absurd hr hno
      · rw [TransferChain.counter_eq hlt, hlimit] at hbelow
        exact hone.trans_lt (Nat.lt_of_le_of_lt hbelow (smallest_lt s.entered))
    · obtain ⟨-, ⟨n, -, hn⟩, -⟩ := hphase'
      exact Nat.le.intro (Nat.add_comm _ _ ▸ hn)
  | stop h => exact ⟨hused, hroom, hlimit, hpaid, fun _ ↦ ⟨_, _, rfl⟩⟩
  | advance h hstep =>
    rw [h] at hphase
    refine ⟨hused, hroom, hlimit, hpaid, ?_⟩
    have hno := not_refused_of_ok hphase
    rcases started_afterStep s.chain _ _ _ _ _ with hs | ⟨target, hs⟩
    · exact hs.sound hpaid hno
    · rw [hs]
      exact hno

/-! ## Every chain ends -/

/-- The charges that are left before the counter wraps around. -/
def ChainState.budget (s : ChainState) : ℕ := 2 ^ 64 - s.chain.stepsUsed

def Later (wafer : String → Option CompiledFlow) (host : Host) (t s : ChainState) : Prop :=
  ∃ a, chainStep wafer host s a = some t

theorem ChainMove.budget_le (h : ChainMove wafer host s t) : t.budget ≤ s.budget := by
  have hused := h.tightened.stepsUsed
  rw [ChainState.budget, ChainState.budget]
  omega

theorem acc_of_finished {output : OutputStream} (h : s.phase = .finished output) :
    Acc (Later wafer host) s := by
  refine ⟨_, fun t ⟨a, ht⟩ ↦ ?_⟩
  cases chainMove_of_step ht with
  | enter now h' => cases h.symm.trans h'
  | work h' hstep => cases h.symm.trans h'
  | stop h' => cases h.symm.trans h'
  | advance h' hstep => cases h.symm.trans h'

theorem acc_of_failed {flow : CompiledFlow} {current : ℕ} {routed : Bool} {stop : ShortCircuit}
    {st : ExecState} (h : s.phase = .running flow current routed (.done (.error (stop, st)))) :
    Acc (Later wafer host) s := by
  refine ⟨_, fun t ⟨a, ht⟩ ↦ ?_⟩
  cases chainMove_of_step ht with
  | enter now h' => cases h.symm.trans h'
  | work h' hstep =>
    cases h.symm.trans h'
    cases hstep
  | stop h' => exact acc_of_finished rfl
  | advance h' hstep => cases h.symm.trans h'

theorem step_checkBudget {p q : TransferChain × List (Σ e, Answer e)} {env : StepEnv}
    {st : ExecState} {k y : Run}
    (h : Step (traced TransferChain.answer) p (checkBudget env st k) q y) :
    (q.1 = p.1.charge.2 ∧ y = k) ∨ y = .done (.error (.error (budgetError env), st)) := by
  cases h with
  | @perform _ _ m granted _ h =>
    have hans : some p.1.charge = some (granted, q.1) := (traced_eq_some.mp h).1
    have hcharge := Prod.mk.inj (Option.some.inj hans)
    cases granted with
    | true => exact .inl ⟨hcharge.2.symm, rfl⟩
    | false => exact .inr rfl

theorem not_refused_of_started (hs : s.Sound host) (h : s.phase.Started)
    (hrunning : ∀ output, s.phase ≠ .finished output) : ¬Refused s.trace := by
  have hphase := hs.phase
  generalize s.phase = phase at h hphase hrunning
  cases h with
  | finished output => exact absurd rfl (hrunning output)
  | @running flow current routed step env mode st hstep =>
    obtain ⟨k, hk⟩ := runStep_eq_checkBudget env step mode st fun st ↦ .done (.ok st)
    rw [hk] at hphase
    intro hr
    cases hphase.2.2.2 hr

theorem acc_of_started (ih : ∀ t : ChainState, t.Sound host → t.budget < s.budget →
    Acc (Later wafer host) t) (hs : s.Sound host) (h : s.phase.Started) :
    Acc (Later wafer host) s := by
  have hroom := fun hrunning ↦ hs.room (not_refused_of_started hs h hrunning)
  obtain ⟨chain, trace, entered, phase⟩ := s
  cases h with
  | finished output => exact acc_of_finished rfl
  | @running flow current routed step env mode st hstep =>
    obtain ⟨k, hk⟩ := runStep_eq_checkBudget env step mode st fun st ↦ .done (.ok st)
    rw [hk] at ih hs hroom ⊢
    refine ⟨_, fun t ⟨a, ht⟩ ↦ ?_⟩
    have hmove := chainMove_of_step ht
    have ht' := hs.move hmove
    cases hmove with
    | enter now h' => cases h'
    | work h' hstep =>
      cases h'
      rcases step_checkBudget hstep with ⟨hcharged, -⟩ | rfl
      · refine ih _ ht' ?_
        rw [ChainState.budget, ChainState.budget, hcharged]
        exact Nat.sub_succ_lt_self _ _ (hroom (by rintro _ ⟨⟩))
      · exact acc_of_failed rfl
    | stop h' => cases h'
    | advance h' hstep => cases h'

/-- **Every chain ends**: no sequence of moves is infinite. The induction is on the charges that are
left, and for each number of them on the strand of the current step. -/
theorem acc_chainStep (hs : s.Sound host) : Acc (Later wafer host) s := by
  induction hb : s.budget using Nat.strong_induction_on generalizing s with
  | _ n ih =>
    subst hb
    have hstarted : ∀ t : ChainState, t.Sound host → t.budget ≤ s.budget → t.phase.Started →
        Acc (Later wafer host) t := fun t hsound hle ht ↦
      acc_of_started (fun u hu hlt ↦ ih u.budget (hlt.trans_le hle) hu rfl) hsound ht
    have hentering : ∀ t : ChainState, t.Sound host → t.budget ≤ s.budget →
        (∃ flow msg input record, t.phase = .entering flow msg input record) →
        Acc (Later wafer host) t := by
      rintro t hsound hle ⟨flow, msg, input, record, ht⟩
      refine ⟨_, fun u ⟨a, hu⟩ ↦ ?_⟩
      have hmove := chainMove_of_step hu
      have hsound' := hsound.move hmove
      have hle' := hmove.budget_le.trans hle
      cases hmove with
      | enter now h => exact hstarted _ hsound' hle' (started_startFlow _ _ _ _ _)
      | work h hstep => cases ht.symm.trans h
      | stop h => cases ht.symm.trans h
      | advance h hstep => cases ht.symm.trans h
    have hrunning : ∀ run : Run, ∀ t : ChainState, t.Sound host → t.budget ≤ s.budget →
        (∃ flow current routed, t.phase = .running flow current routed run) →
        Acc (Later wafer host) t := by
      intro run
      induction acc_next (traced TransferChain.answer) run with
      | intro run _ ihrun =>
        rintro t hsound hle ⟨flow, current, routed, ht⟩
        refine ⟨_, fun u ⟨a, hu⟩ ↦ ?_⟩
        have hmove := chainMove_of_step hu
        have hsound' := hsound.move hmove
        have hle' := hmove.budget_le.trans hle
        cases hmove with
        | enter now h => cases ht.symm.trans h
        | work h hstep =>
          cases ht.symm.trans h
          exact ihrun _ ⟨_, _, hstep⟩ _ hsound' hle' ⟨_, _, _, rfl⟩
        | stop h => exact acc_of_finished rfl
        | @advance flow current routed st step h hstep =>
          rcases started_afterStep t.chain flow current routed step.plan st with hs | ⟨target, hs⟩
          · exact hstarted _ hsound' hle' hs
          · exact hentering _ hsound' hle' ⟨_, _, _, _, hs⟩
    cases hphase : s.phase with
    | entering flow msg input record => exact hentering s hs le_rfl ⟨_, _, _, _, hphase⟩
    | running flow current routed run => exact hrunning run s hs le_rfl ⟨_, _, _, hphase⟩
    | finished output => exact acc_of_finished hphase

/-! ## The end of a chain -/

theorem TransferChain.exists_answer (p : TransferChain × List (Σ e, Answer e)) (e : Effect) :
    ∃ m a q, traced TransferChain.answer p e m = some (a, q) := by
  have m : Moment := ⟨0, fun _ ↦ .ok (.ofEvents [])⟩
  cases e with
  | charge => exact ⟨m, _, _, rfl⟩
  | check => exact ⟨m, _, _, rfl⟩
  | invoke call => exact ⟨m, _, _, rfl⟩

theorem ChainState.Sound.exists_move (hs : s.Sound host) :
    (∃ output, s.phase = .finished output) ∨ ∃ a t, chainStep wafer host s a = some t := by
  have hphase := hs.phase
  cases h : s.phase with
  | finished output => exact .inl ⟨output, rfl⟩
  | entering flow msg input record =>
    exact .inr ⟨.enter 0, _, by rw [chainStep, h]⟩
  | running flow current routed run =>
    right
    rw [h] at hphase
    obtain ⟨⟨step, hstep⟩, -⟩ := hphase
    rcases exists_step TransferChain.exists_answer (s.chain, s.trace) run with ⟨r, rfl⟩ | ⟨q, y, hy⟩
    · cases r with
      | error e => exact ⟨.advance, _, by rw [chainStep, h]⟩
      | ok st =>
        refine ⟨.advance,
          { s with phase := afterStep wafer host s.chain flow current routed step.plan st }, ?_⟩
        rw [chainStep, h]
        exact Option.map_eq_some_iff.mpr ⟨step, hstep, rfl⟩
    · have : Nonempty Moment := ⟨⟨0, fun _ ↦ .ok (.ofEvents [])⟩⟩
      obtain ⟨m, p, hp⟩ := hy.exists_stepAt
      refine ⟨.work p m,
        { s with chain := q.1, trace := q.2, phase := .running flow current routed y }, ?_⟩
      rw [chainStep, h]
      exact Option.map_eq_some_iff.mpr ⟨_, hp, rfl⟩

theorem ChainMove.grants_eq (h : ChainMove wafer host s t)
    (hspent : s.chain.maxSteps ≤ s.chain.stepsUsed) (hfits : t.chain.stepsUsed ≤ 2 ^ 64) :
    grants t.trace = grants s.trace := by
  cases h with
  | enter now h => rfl
  | work h hstep =>
    rcases (worked_of_step hstep).granted with ⟨hsame, -⟩ | ⟨hone, hbelow⟩
    · exact hsame
    · have hlt : s.chain.stepsUsed < 2 ^ 64 := Nat.lt_of_succ_le (hone.symm.trans_le hfits)
      rw [TransferChain.counter_eq hlt] at hbelow
      exact absurd hbelow (Nat.not_lt.mpr hspent)
  | stop h => rfl
  | advance h hstep => rfl

/-- How a chain goes on from a state `s` in which something was refused: it stays in the same step
of the same flow, which does not end well, or it has ended with a short circuit. -/
structure StoppedAt (host : Host) (s t : ChainState) : Prop where
  entered : t.entered = s.entered
  phase : (∃ flow current routed x y, s.phase = .running flow current routed x ∧
      t.phase = .running flow current routed y ∧ ∀ st, y ≠ .done (.ok st)) ∨
    ∃ stop st, t.phase = .finished (ShortCircuit.intoOutput host st stop)

theorem Doomed.ne_ok {x : Run} (h : Doomed Failed x) (st : ExecState) : x ≠ .done (.ok st) := by
  rintro rfl
  obtain ⟨stop, st', heq⟩ := h.fails_of_done
  cases heq

theorem ChainState.Sound.stoppedAt_self (hs : s.Sound host) (hr : Refused s.trace) :
    StoppedAt host s s := by
  have hphase := hs.phase
  refine ⟨rfl, ?_⟩
  cases h : s.phase with
  | entering flow msg input record =>
    rw [h] at hphase
    exact absurd hr hphase
  | running flow current routed run =>
    rw [h] at hphase
    exact .inl ⟨flow, current, routed, run, run, rfl, rfl, Doomed.ne_ok (hphase.2.2.2 hr)⟩
  | finished output =>
    rw [h] at hphase
    obtain ⟨stop, st, rfl⟩ := hphase hr
    exact .inr ⟨stop, st, rfl⟩

theorem StoppedAt.move {u : ChainState} (h : StoppedAt host s t) (ht : t.Sound host)
    (hr : Refused t.trace) (hmove : ChainMove wafer host t u) :
    StoppedAt host s u ∧ Refused u.trace := by
  have hphase := ht.phase
  cases hmove with
  | enter now h' =>
    rw [h'] at hphase
    exact absurd hr hphase
  | @work flow current routed run q y h' hstep =>
    rw [h'] at hphase
    have hr' : Refused q.2 := hr.mono (worked_of_step hstep).subset
    refine ⟨⟨h.entered, ?_⟩, hr'⟩
    rcases h.phase with ⟨f, c, r, x, z, hs, hz, -⟩ | ⟨stop, st, hz⟩
    · cases h'.symm.trans hz
      exact .inl ⟨_, _, _, x, y, hs, rfl, Doomed.ne_ok ((hphase.step hstep).2.2.2 hr')⟩
    · cases h'.symm.trans hz
  | stop h' => exact ⟨⟨h.entered, .inr ⟨_, _, rfl⟩⟩, hr⟩
  | advance h' hstep =>
    rw [h'] at hphase
    exact absurd hr (not_refused_of_ok hphase)

end Moves

structure WithinBudget (wafer : String → Option CompiledFlow) (host : Host) (s : ChainState) :
    Prop where
  /-- The chain ends, whatever its blocks answer and however its branches interleave. -/
  ends : Acc (Later wafer host) s
  /-- Until then it can go on. -/
  moves : (∃ output, s.phase = .finished output) ∨ ∃ a t, chainStep wafer host s a = some t
  /-- Every invocation has a granted charge of its own. -/
  paid : invocations s.trace ≤ grants s.trace
  /-- The counter counts the charges of all flows. -/
  used : s.chain.stepsUsed = attempts s.trace
  limit : s.chain.maxSteps = smallest s.entered
  /-- Once the counter has reached the bound of a flow, no step and no item is granted its charge
  until it wraps around, which takes `2 ^ 64` charges. -/
  exhausted : ∀ flow ∈ s.entered, flow.maxSteps ≤ s.chain.stepsUsed →
    ∀ as t, Actions.run (chainStep wafer host) s as = some t → t.chain.stepsUsed ≤ 2 ^ 64 →
      grants t.trace = grants s.trace
  /-- Limits only get tighter. -/
  tightens : ∀ as t, Actions.run (chainStep wafer host) s as = some t → s.chain.Tightened t.chain
  /-- After a refusal the flow does not get past its step. -/
  stops : Refused s.trace →
    ∀ as t, Actions.run (chainStep wafer host) s as = some t → StoppedAt host s t

/-- **Every chain of flows ends within its budget.** -/
theorem runPlan_withinBudget (wafer : String → Option CompiledFlow) (host : Host)
    (flow : CompiledFlow) (msg : Message) (input : Except WaferError Bytes) {as : List ChainAct}
    {s : ChainState}
    (h : Actions.run (chainStep wafer host) (runPlan flow msg input) as = some s) :
    WithinBudget wafer host s := by
  have hinit : (runPlan flow msg input).Sound host := by
    refine ⟨rfl, fun _ ↦ Nat.two_pow_pos 64, rfl, le_rfl, ?_⟩
    rintro ⟨p, hp, -⟩
    exact absurd hp not_mem_nil
  have hsound : s.Sound host :=
    Actions.run_invariant (fun _ _ _ hs ht ↦ hs.move (chainMove_of_step ht)) hinit h
  refine ⟨acc_chainStep hsound, hsound.exists_move, hsound.paid, hsound.used, hsound.limit, ?_, ?_, ?_⟩
  · intro f hf hreached as t ht hfits
    have hspent : s.chain.maxSteps ≤ s.chain.stepsUsed := by
      rw [hsound.limit]
      exact (smallest_le hf).trans hreached
    refine (Actions.run_invariant (I := fun u ↦ (u.chain.stepsUsed ≤ 2 ^ 64 →
      grants u.trace = grants s.trace) ∧ u.chain.maxSteps ≤ u.chain.stepsUsed) ?_
      ⟨fun _ ↦ rfl, hspent⟩ ht).1 hfits
    rintro u a v ⟨hu, hle⟩ hv
    have hmove := chainMove_of_step hv
    refine ⟨fun hfits ↦ (hmove.grants_eq hle hfits).trans
      (hu (hmove.tightened.stepsUsed.trans hfits)), ?_⟩
    exact hmove.tightened.maxSteps.trans (hle.trans hmove.tightened.stepsUsed)
  · intro as t ht
    refine Actions.run_invariant (I := fun u ↦ s.chain.Tightened u.chain) ?_ (.refl _) ht
    intro u a v hu hv
    exact hu.trans (chainMove_of_step hv).tightened
  · intro hr as t ht
    refine (Actions.run_invariant (I := fun u ↦ u.Sound host ∧ Refused u.trace ∧
      StoppedAt host s u) ?_ ⟨hsound, hr, hsound.stoppedAt_self hr⟩ ht).2.2
    rintro u a v ⟨hu, hru, hstop⟩ hv
    have hmove := chainMove_of_step hv
    obtain ⟨hstop', hrv⟩ := hstop.move hu hru hmove
    exact ⟨hu.move hmove, hrv, hstop'⟩

/-! ## A flow that transfers to itself -/

namespace LoopFlow

/-- The flow may run one step, forgives errors, and transfers to itself after its step. -/
def flow : CompiledFlow where
  id := "loop"
  timeout := none
  maxSteps := 1
  onError := .continue
  usesAccumulator := false
  steps := [.mk ⟨"again", "org/pass", some "org/pass", none, [], none,
    some [⟨none, .flow "loop"⟩]⟩ none]

def host : Host where
  fromSlice _ := none
  toVec _ := .ok []
  display _ := ""
  debug s := s

def moment : Moment := ⟨0, fun call ↦ .ok (.ofEvents [.continue call.msg])⟩

def work : ChainAct := .work [] moment

/-- The first visit runs the step, the second is refused. -/
def acts : List ChainAct :=
  [.enter 0, work, work, work, work, .advance, .enter 0, work, .advance]

def last : Option ChainState :=
  Actions.run (chainStep (fun _ ↦ some flow) host) (runPlan flow ⟨"http.request", []⟩ (.ok [])) acts

end LoopFlow

open LoopFlow in
theorem runPlan_withinBudget_loop :
    ∃ s, last = some s ∧ WithinBudget (fun _ ↦ some flow) host s ∧ invocations s.trace = 1 ∧
      s.entered.length = 2 := by
  have hsome : last.map (fun s ↦ (invocations s.trace, s.entered.length)) = some (1, 2) := rfl
  obtain ⟨s, hs, heq⟩ := Option.map_eq_some_iff.mp hsome
  obtain ⟨hinv, hlen⟩ := Prod.mk.inj heq
  exact ⟨s, hs, runPlan_withinBudget _ _ _ _ _ hs, hinv, hlen⟩

/-! ## A counter that wraps around

A flow whose limit is the greatest there is repeats its first step as long as the block answers
`true`, and then forks. When one charge is left for the two branches, the first branch is refused a
charge, and the counter wraps around. So the second branch is granted one. -/

namespace SpinFlow

def spin : CompiledStep :=
  .mk ⟨"spin", "org/spin", some "org/spin", some fun _ ↦ .ok .null, [], none,
    some [⟨some ("$.spin", fun get ↦ .ok (get "spin" matches some (.bool true))), .step 0⟩]⟩ none

def plain (id : String) : CompiledStep := .mk ⟨id, "org/pass", some "org/pass", none, [], none, none⟩ none

def flow : CompiledFlow where
  id := "spin"
  timeout := none
  maxSteps := 2 ^ 64 - 1
  onError := .stop
  usesAccumulator := true
  steps := [spin, .mk ⟨"fork", "org/pass", some "org/pass", none, [], none, none⟩
    (some [[plain "a"], [plain "b"]])]

/-- The texts of the JSON that occurs. -/
def host : Host where
  fromSlice bytes := if bytes = "true".toUTF8.data.toList then some (.bool true) else none
  toVec _ := .ok "null".toUTF8.data.toList
  display _ := ""
  debug s := s

def reply (again : Bool) : Moment :=
  ⟨0, fun _ ↦ .ok (.ofEvents [.chunk ((if again then "true" else "false").toUTF8.data.toList),
    .complete []])⟩

/-- One pass through the first step. -/
def pass (again : Bool) : List ChainAct :=
  [.work [] (reply again), .work [] (reply again), .work [] (reply again), .work [] (reply again),
    .advance]

def init : ChainState := runPlan flow ⟨"http.request", []⟩ (.ok [])

abbrev run (s : ChainState) (as : List ChainAct) : Option ChainState :=
  Actions.run (chainStep (fun _ ↦ none) host) s as

def chain (n : ℕ) : TransferChain := ⟨false, n, 2 ^ 64 - 1, none⟩

/-- The chain has made `n` charges, and a step is about to start. -/
structure Before (current : ℕ) (n : ℕ) (s : ChainState) : Prop where
  chain : s.chain = SpinFlow.chain n
  entered : s.entered = [flow]
  phase : ∃ routed st, s.phase = startStep host (SpinFlow.chain n) flow current routed st

theorem chainStep_charge (s : ChainState) (flow : CompiledFlow) (current : ℕ) (routed : Bool)
    (env : StepEnv) (st : ExecState) (k : Run) (m : Moment)
    (h : s.phase = .running flow current routed (checkBudget env st k))
    (hgranted : s.chain.charge.1 = true) :
    chainStep (fun _ ↦ none) host s (.work [] m) = some ⟨s.chain.charge.2,
      ⟨.charge, true⟩ :: s.trace, s.entered, .running flow current routed k⟩ := by
  obtain ⟨chain, trace, entered, phase⟩ := s
  obtain rfl : phase = _ := h
  have hstep : chainStep (fun _ ↦ none) host ⟨chain, trace, entered, .running flow current routed
      (checkBudget env st k)⟩ (.work [] m) = some ⟨chain.charge.2, ⟨.charge, chain.charge.1⟩ :: trace,
      entered, .running flow current routed
        (if chain.charge.1 then k else fail st (.error (budgetError env)))⟩ := rfl
  rw [hstep, show chain.charge.1 = true from hgranted]
  rfl

theorem exists_pass {n : ℕ} {s : ChainState} (hs : Before 0 n s) (hn : n < 2 ^ 64 - 1)
    (again : Bool) : ∃ t, run s (pass again) = some t ∧ Before (if again then 0 else 1) (n + 1) t := by
  obtain ⟨chain, trace, entered, phase⟩ := s
  obtain ⟨rfl, rfl, routed, st, rfl⟩ := hs
  have hgranted : (SpinFlow.chain n).charge.1 = true := by
    have hlt : n < 2 ^ 64 := by omega
    rw [TransferChain.charge, TransferChain.counter_eq hlt]
    exact decide_eq_true hn
  have hcharge := chainStep_charge ⟨_, trace, [flow], startStep host
    (SpinFlow.chain n) flow 0 routed st⟩ flow 0 routed _ st _ (reply again) rfl hgranted
  cases again with
  | true => exact ⟨_, Actions.run_cons_eq_some.mpr ⟨_, hcharge, rfl⟩, rfl, rfl, true, _, rfl⟩
  | false => exact ⟨_, Actions.run_cons_eq_some.mpr ⟨_, hcharge, rfl⟩, rfl, rfl, false, _, rfl⟩

theorem exists_before {n : ℕ} (hn : n ≤ 2 ^ 64 - 1) : ∃ as s, run init as = some s ∧ Before 0 n s := by
  induction n with
  | zero => exact ⟨[.enter 0], _, rfl, rfl, rfl, false, _, rfl⟩
  | succ n ih =>
    obtain ⟨as, s, hs, hbefore⟩ := ih (by omega)
    obtain ⟨t, ht, hbefore'⟩ := exists_pass hbefore (by omega) true
    exact ⟨as ++ pass true, t, Actions.run_trans hs ht, hbefore'⟩

/-- In the fork the first branch is refused a charge and the second one is granted one. -/
theorem exists_fork {s : ChainState} (hs : Before 1 (2 ^ 64 - 2) s) :
    ∃ t u, run s [.work [] (reply true)] = some t ∧ t.entered = [flow] ∧
      flow.maxSteps ≤ t.chain.counter ∧ run t [.work [] (reply true), .work [0] (reply true),
        .work [1] (reply true)] = some u ∧
      u.trace = ⟨.charge, true⟩ :: ⟨.charge, false⟩ :: ⟨.check, .ok⟩ :: t.trace := by
  obtain ⟨_, trace, _, _⟩ := s
  obtain ⟨rfl, rfl, routed, st, rfl⟩ := hs
  have hfirst : (SpinFlow.chain (2 ^ 64 - 2 + 1)).charge.1 = false := by decide
  have hsecond : (SpinFlow.chain (2 ^ 64 - 2 + 1 + 1)).charge.1 = true := by decide
  refine ⟨_, _, rfl, rfl, Nat.le_refl _, rfl, ?_⟩
  rw [← hfirst, ← hsecond]
  rfl

end SpinFlow

open SpinFlow in
/-- **A step is started after the counter has reached the limit.** -/
theorem step_started_after_wraparound :
    ∃ as s as' t, Actions.run (chainStep (fun _ ↦ none) host) init as = some s ∧
      flow ∈ s.entered ∧ flow.maxSteps ≤ s.chain.counter ∧
      Actions.run (chainStep (fun _ ↦ none) host) s as' = some t ∧
      grants t.trace = grants s.trace + 1 := by
  obtain ⟨as, r, hr, hspin⟩ := exists_before (n := 2 ^ 64 - 3) (by decide)
  obtain ⟨q, hq, hfork⟩ := exists_pass hspin (by decide) false
  obtain ⟨s, t, hs, hentered, hlimit, ht, htrace⟩ := exists_fork hfork
  refine ⟨_, s, _, t, Actions.run_trans (Actions.run_trans hr hq) hs, ?_, hlimit, ht, ?_⟩
  · rw [hentered]
    exact mem_singleton_self flow
  · rw [htrace]
    simp [grants, earned, grant, Nat.add_comm]

end WaferRun
