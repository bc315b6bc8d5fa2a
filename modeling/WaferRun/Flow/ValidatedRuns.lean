import WaferRun.Flow.Boundaries
import WaferRun.Flow.Compile
import WaferRun.Flow.ExprPrinter
import WaferRun.Flow.Parallel

/-!
# Runs of validated flows

A runtime only compiles documents that validation accepted, and only transfers to flows it has
compiled. Here is what such a runtime can rely on, in every run.

* The accumulator is clean at every boundary, of the main strand and of every branch
  (`accumulator_clean`): no layer binds `each`, and every entry other than the input of the flow
  belongs to a step that has completed on the strand or before a fork around it.
* No plan holds an error, routing always finds an entry, and a join drops nothing that a branch
  wrote if no id of the branches was visible at the fork (`validated_sound`). So it is on the first
  visit of a step. A step that routing returns to is a different matter, see `Parallel`.
-/

open List Option

namespace WaferRun

open Strand WaferRun.Sequential

variable {env : StepEnv} {s : CompiledStep} {st st' : ExecState} {ids ids' : List String}
  {rest : List CompiledStep}

/-! ## Inside a step -/

theorem Inside.sublist (h : Inside env s st ids rest st' ids') :
    (stepsIds rest).Sublist (parallelIds s.parallel) := by
  induction h with
  | @fork plan bs b st ids hb =>
    rw [CompiledStep.parallel, parallelIds, branchIds_eq_flatMap, stepsIds_eq_flatMap,
      flatMap_def (l := bs)]
    exact sublist_flatten_of_mem (List.mem_map.mpr ⟨b, hb, rfl⟩)
  | @next s c st st₁ st₂ ids ids₁ rest _ _ ih =>
    rw [stepsIds] at ih
    exact (sublist_append_right _ _).trans ih
  | @nested s c st st₁ st₂ ids ids₁ ids₂ rest rest' _ _ ih ih' =>
    rw [stepsIds] at ih
    refine (ih'.trans ?_).trans ((sublist_append_left _ _).trans ih)
    obtain ⟨plan, parallel⟩ := c
    exact sublist_cons_self _ _

theorem parallelIds_sublist (s : CompiledStep) : (parallelIds s.parallel).Sublist (stepIds s) := by
  obtain ⟨plan, parallel⟩ := s
  exact sublist_cons_self _ _

theorem Inside.stepIds_sublist {c : CompiledStep} (h : Inside env s st ids (c :: rest) st' ids') :
    (stepIds c).Sublist (stepIds s) := by
  have hsub := h.sublist
  rw [stepsIds] at hsub
  exact ((sublist_append_left _ _).trans hsub).trans (parallelIds_sublist s)

/-! ## The accumulator -/

/-- An accumulator between two steps: no layer binds `each`, the input is the body the flow started
with, and every other entry belongs to a step that has completed. -/
structure Clean (host : Host) (flow : CompiledFlow) (body : Bytes) (acc : Accumulator)
    (completed : List String) : Prop where
  each : ∀ layer ∈ acc.data :: acc.parents, layer "each" = none
  input : flow.usesAccumulator = true →
    acc.get "input" = some ((host.fromSlice body).getD .null)
  others : ∀ k v, acc.get k = some v → k = "input" ∨ k ∈ completed

section Clean

variable {host : Host} {flow : CompiledFlow} {body : Bytes} {acc acc' : Accumulator}
  {completed : List String}

theorem Clean.get_each (h : Clean host flow body acc completed) : acc.get "each" = none :=
  List.findSome?_eq_none_iff.mpr h.each

theorem Clean.branchFrom (h : Clean host flow body acc completed) :
    Clean host flow body acc.branchFrom completed := by
  refine ⟨fun layer hlayer ↦ ?_, h.input, h.others⟩
  rcases mem_cons.mp hlayer with rfl | hlayer
  · rfl
  · exact h.each layer hlayer

theorem get_of_writesOnly (hw : WritesOnly ids acc acc') {k : String} (hk : k ∉ ids)
    (hne : k ≠ "each") : acc'.get k = acc.get k := by
  rw [Accumulator.get_eq, hw.others k hk hne, hw.parents, ← Accumulator.get_eq]

theorem Clean.writes (h : Clean host flow body acc completed) (hw : WritesOnly ids acc acc')
    (hinput : "input" ∉ ids) :
    Clean host flow body acc' (completed ++ ids) where
  each := by
    have heach := forall_mem_cons.mp h.each
    rw [forall_mem_cons, hw.parents]
    exact ⟨hw.each heach.1, heach.2⟩
  input huses := by
    have hne : "input" ≠ "each" := by decide
    rw [get_of_writesOnly hw hinput hne]
    exact h.input huses
  others k v hv := by
    by_cases hk : k ∈ ids
    · exact .inr (mem_append_right _ hk)
    by_cases hne : k = "each"
    · -- the binding of a fan-out is not visible before and not written
      subst hne
      have hdata := hw.each (h.each _ mem_cons_self)
      have hkept := h.get_each
      rw [Accumulator.get_eq, h.each _ mem_cons_self, none_or] at hkept
      rw [Accumulator.get_eq, hdata, hw.parents, hkept] at hv
      exact absurd hv (some_ne_none v).symm
    · rw [get_of_writesOnly hw hk hne] at hv
      exact (h.others k v hv).imp_right (mem_append_left _)

theorem clean_start (flow : CompiledFlow) (body : Bytes) (msg : Message)
    (record : ResponderRecord) :
    Clean host flow body (Place.start host flow body msg record).state.acc [] := by
  rw [Place.start]
  dsimp only
  cases huses : flow.usesAccumulator with
  | false =>
    refine ⟨fun layer hlayer ↦ ?_, fun h ↦ absurd (huses.symm.trans h) Bool.false_ne_true,
      fun k v hv ↦ absurd hv (some_ne_none v).symm⟩
    obtain rfl := mem_singleton.mp hlayer
    rfl
  | true =>
    rw [if_pos rfl]
    refine ⟨fun layer hlayer ↦ ?_, fun _ ↦ ?_, fun k v hv ↦ ?_⟩
    · obtain rfl := mem_singleton.mp hlayer
      have hne : "each" ≠ "input" := by decide
      exact Accumulator.new.data_set_of_ne _ hne
    · rw [Accumulator.get_set, Function.update_self]
    · rw [Accumulator.get_set] at hv
      by_cases hk : k = "input"
      · exact .inl hk
      · rw [Function.update_of_ne hk] at hv
        exact absurd hv (some_ne_none v).symm

theorem Inside.clean (h : Inside env s st ids rest st' ids') (hinput : "input" ∉ stepIds s)
    (heach : "each" ∉ stepIds s) (hst : Clean host flow body st.acc ids) :
    Clean host flow body st'.acc ids' := by
  induction h with
  | fork hb => exact hst.branchFrom
  | next h hend ih =>
    have hsub := h.stepIds_sublist.subset
    refine (ih hinput heach hst).writes ?_ fun hmem ↦ hinput (hsub hmem)
    exact writesOnly_of_mayEnd (fun hmem ↦ heach (hsub hmem)) hend
  | nested h h' ih ih' =>
    have hsub := h.stepIds_sublist.subset
    exact ih' (fun hmem ↦ hinput (hsub hmem)) (fun hmem ↦ heach (hsub hmem)) (ih hinput heach hst)

end Clean

/-! ## Joins -/

/-- The filter of the join drops no entry of any branch that ends. -/
def JoinKeepsAll (env : StepEnv) (bs : List (List CompiledStep)) (st : ExecState) : Prop :=
  ∀ b ∈ bs, ∀ own,
    MayEnd (runBranchSteps env b (branchState st) fun st ↦ .done (.ok st)) (.ok own) →
    ∀ acc, mergeDelta st.acc acc own.acc.intoData = keep acc own.acc.intoData

theorem joinKeepsAll_of_fresh {bs : List (List CompiledStep)} (heach : "each" ∉ branchIds bs)
    (hfresh : Fresh (branchIds bs) st.acc) : JoinKeepsAll env bs st := by
  intro b hb own hend acc
  have hsub : stepsIds b ⊆ branchIds bs := by
    rw [branchIds_eq_flatMap, stepsIds_eq_flatMap]
    exact fun id hid ↦ mem_flatMap.mpr ⟨b, hb, hid⟩
  have hw := writesOnly_of_mayEnd_branch (fun hmem ↦ heach (hsub hmem)) hend
  have hkept : ∀ k, ((own.acc.intoData k).filter fun _ ↦ (st.acc.get k).isNone) =
      own.acc.intoData k := by
    intro k
    cases hk : own.acc.intoData k with
    | none => rfl
    | some v =>
      have hget := hfresh k (hsub (mem_of_data_branch hw hk))
      exact filter_some_pos (by rw [hget]; rfl)
  rw [mergeDelta, keep]
  simp only [hkept]

/-- Where no id of the branches of a step is visible at its start, none is visible at the forks in
them. -/
theorem Inside.fresh (h : Inside env s st ids rest st' ids') (hnodup : (stepIds s).Nodup)
    (heach : "each" ∉ stepIds s) (hfresh : Fresh (parallelIds s.parallel) st.acc) :
    Fresh (stepsIds rest) st'.acc := by
  induction h with
  | @fork plan bs b st ids hb =>
    have hbs : Fresh (branchIds bs) st.acc := hfresh
    refine hbs.mono ?_
    rw [branchIds_eq_flatMap, stepsIds_eq_flatMap]
    exact fun id hid ↦ mem_flatMap.mpr ⟨b, hb, hid⟩
  | @next s c st st₁ st₂ ids ids₁ rest h hend ih =>
    have hrest : (stepsIds (c :: rest)).Sublist (stepIds s) :=
      h.sublist.trans (parallelIds_sublist s)
    have hids := hnodup.sublist hrest
    have hnone : "each" ∉ stepsIds (c :: rest) := fun hmem ↦ heach (hrest.subset hmem)
    rw [stepsIds, List.nodup_append'] at hids
    rw [stepsIds, mem_append, not_or] at hnone
    -- what the step wrote is disjoint from the ids of the steps after it
    refine Fresh.writesOnly ?_ (writesOnly_of_mayEnd hnone.1 hend) hids.2.2 hnone.2
    refine (ih hnodup heach hfresh).mono ?_
    rw [stepsIds]
    exact subset_append_right _ _
  | @nested s c st st₁ st₂ ids ids₁ ids₂ rest rest' h h' ih ih' =>
    have hsub := h.stepIds_sublist
    refine ih' (hnodup.sublist hsub) (fun hmem ↦ heach (hsub.subset hmem)) ?_
    refine (ih hnodup heach hfresh).mono ?_
    rw [stepsIds]
    exact fun id hid ↦ mem_append_left _ ((parallelIds_sublist c).subset hid)

def compiledFlows (wafer : Wafer) (flows : String → Option WaferFlow) (id : String) :
    Option CompiledFlow :=
  (flows id).map (flowPlan wafer)

/-! ### Two documents

A flow whose only step counts in a branch and then routes to itself, and a flow whose only step
passes its message on. -/

namespace Documents

/-- Enough of a runtime for the two documents: every block is registered. -/
def runtime : Wafer where
  reader := .ones
  host := RetryFlow.host
  compare := ⟨fun _ _ ↦ false, fun _ _ ↦ false, fun _ _ ↦ false, fun _ ↦ false⟩
  lookupWithAlias name := some name

def step (id block : String) : StepFields := ⟨id, block, none, none, none, none⟩

def count : FlowStep := .mk { step "count" "org/count" with input := some .null } none

def counting : WaferFlow where
  id := "counting"
  steps :=
    [.mk { step "fan" "org/retry" with next := some [⟨none, some "fan", none⟩] } (some [[count]])]
  config := none

def passing : WaferFlow where
  id := "passing"
  steps := [.mk (step "pass" "org/pass") none]
  config := none

/-- Moves of the strand of a step; the clock stands still. -/
def work (positions : List (List ℕ)) : List ChainAct :=
  positions.map fun position ↦ .work position ⟨0, RetryFlow.blocks⟩

def firstVisit : List ChainAct :=
  .enter 0 :: work [[], [], [0], [0], [0], [0], [], [], []] ++ [.advance]

def start (doc : WaferFlow) : ChainState × Option Place :=
  (runPlan (flowPlan runtime doc) ⟨"first", []⟩ (.ok [49]), none)

def move : ChainState × Option Place → ChainAct → Option (ChainState × Option Place) :=
  placedStep (compiledFlows runtime fun _ ↦ none) runtime.host

end Documents

section Runs

variable {wafer : Wafer} {flows : String → Option WaferFlow} {flow : WaferFlow}

theorem OfChain.validated (hflows : ∀ id f, flows id = some f → validate wafer.reader f = .ok ())
    (hflow : validate wafer.reader flow = .ok ()) {plan : CompiledFlow}
    (h : OfChain (compiledFlows wafer flows) (flowPlan wafer flow) plan) :
    Validated plan.steps := by
  have hplan : ∀ {f : WaferFlow}, validate wafer.reader f = .ok () →
      Validated (flowPlan wafer f).steps := fun hf ↦
    (compileFlow_sound (validate_eq_ok.mp hf)).validated wafer
  rcases h with rfl | ⟨id, hid⟩
  · exact hplan hflow
  · obtain ⟨f, hf, rfl⟩ := map_eq_some_iff.mp hid
    exact hplan (hflows id f hf)

/-- A boundary of the main strand of a validated flow: the accumulator is clean, and the steps that
have completed are whole steps of the flow. -/
structure Place.Sound (host : Host) (p : Place) : Prop where
  validated : Validated p.flow.steps
  clean : Clean host p.flow p.body p.state.acc p.completed
  completed : ∀ k ∈ p.completed, ∃ c ∈ p.flow.steps, k ∈ stepIds c ∧ stepIds c ⊆ p.completed

theorem Validated.notMem_stepIds {steps : List CompiledStep} (hv : Validated steps) (hs : s ∈
    steps) :
    "input" ∉ stepIds s ∧ "each" ∉ stepIds s :=
  ⟨fun h ↦ hv.reserved.1 ((stepIds_sublist hs).subset h),
    fun h ↦ hv.reserved.2 ((stepIds_sublist hs).subset h)⟩

theorem Place.Sound.after {host : Host} {p : Place} (hp : p.Sound host) {step : CompiledStep}
    (hstep : step ∈ p.flow.steps) {mode : ResponseMode}
    (hend : MayEnd (stepRun env step mode p.state) (.ok st)) : (p.after step st).Sound host := by
  obtain ⟨hinput, heach⟩ := hp.validated.notMem_stepIds hstep
  refine ⟨hp.validated, hp.clean.writes (writesOnly_of_mayEnd heach hend) hinput, fun k hk ↦ ?_⟩
  rcases mem_append.mp hk with hk | hk
  · obtain ⟨c, hc, hmem, hsub⟩ := hp.completed k hk
    exact ⟨c, hc, hmem, fun x hx ↦ mem_append_left _ (hsub hx)⟩
  · exact ⟨step, hstep, hk, subset_append_right _ _⟩

theorem sound_of_run (hflows : ∀ id f, flows id = some f → validate wafer.reader f = .ok ())
    (hflow : validate wafer.reader flow = .ok ()) {msg : Message} {input : Except WaferError Bytes}
    {as : List ChainAct} {s : ChainState} {place : Option Place}
    (hrun : Actions.run (placedStep (compiledFlows wafer flows) wafer.host)
      (runPlan (flowPlan wafer flow) msg input, none) as = some (s, place)) :
    Placed (compiledFlows wafer flows) wafer.host (flowPlan wafer flow)
      (Place.Sound wafer.host) (s.chain, s.trace) s.phase place := by
  refine placed_run (fun plan body msg record hplan ↦ ?_) (fun p step m mode st hp hstep hend ↦ ?_)
    hrun
  · refine ⟨hplan.validated hflows hflow, clean_start plan body msg record, fun k hk ↦ ?_⟩
    exact absurd hk not_mem_nil
  · exact hp.after hstep hend

theorem Placed.good {wafer : String → Option CompiledFlow} {host : Host} {first : CompiledFlow}
    {Good : Place → Prop} {now : TransferChain × List (Σ e, Answer e)} {phase : Phase} {p : Place}
    (h : Placed wafer host first Good now phase (some p)) : Good p := by
  match phase, h with
  | .entering .., h => exact h.2 p rfl
  | .running .., ⟨q, _, _, _, _, hq, hgood, _⟩ =>
    obtain rfl := some.inj hq
    exact hgood
  | .finished _, h => exact h p rfl

/-- **The accumulator is clean at every boundary** of every run of validated flows: on the main
strand, and in the branches of a step that starts there. -/
theorem accumulator_clean (hflows : ∀ id f, flows id = some f → validate wafer.reader f = .ok ())
    (hflow : validate wafer.reader flow = .ok ()) (msg : Message) (input : Except WaferError Bytes)
    (as : List ChainAct) (s : ChainState) (p : Place)
    (hrun : Actions.run (placedStep (compiledFlows wafer flows) wafer.host)
      (runPlan (flowPlan wafer flow) msg input, none) as = some (s, some p)) :
    Clean wafer.host p.flow p.body p.state.acc p.completed ∧
    ∀ step ∈ p.flow.steps, ∀ maxSteps rest st ids,
      Inside ⟨p.flow, wafer.host, maxSteps⟩ step p.state p.completed rest st ids →
      Clean wafer.host p.flow p.body st.acc ids := by
  have hp := (sound_of_run hflows hflow hrun).good
  refine ⟨hp.clean, fun step hstep maxSteps rest st ids hin ↦ ?_⟩
  obtain ⟨hinput, heach⟩ := hp.validated.notMem_stepIds hstep
  exact hin.clean hinput heach hp.clean

open Documents in
/-- After the first visit of the counting step, and in the branch of its second visit. -/
theorem accumulator_clean_counting :
    ∃ s p, Actions.run move (start counting) firstVisit = some (s, some p) ∧
      p.state.acc.get "count" = some RetryFlow.one ∧
      Clean runtime.host p.flow p.body p.state.acc p.completed ∧
      ∃ plan b, .mk plan (some [b]) ∈ p.flow.steps ∧
        Clean runtime.host p.flow p.body (branchState p.state).acc p.completed := by
  refine ⟨_, _, rfl, rfl, ?_⟩
  obtain ⟨hmain, hbranch⟩ := @accumulator_clean runtime (fun _ ↦ none) counting
    (fun _ _ h ↦ absurd h.symm (some_ne_none _)) rfl ⟨"first", []⟩ (.ok [49]) firstVisit
    _ _ rfl
  refine ⟨hmain, _, _, mem_cons_self, ?_⟩
  exact hbranch _ mem_cons_self 1000 _ _ _ (.fork mem_cons_self)

open Documents in
/-- **A flow without templates and fan-outs does not parse its input.** -/
theorem input_not_parsed :
    validate runtime.reader passing = .ok () ∧
    ∃ s p, Actions.run move (start passing) [.enter 0] = some (s, some p) ∧
      runtime.host.fromSlice p.body = some RetryFlow.one ∧ p.state.acc.get "input" = none :=
  ⟨rfl, _, _, rfl, rfl, rfl⟩

theorem Place.Sound.fresh {host : Host} {p : Place} (hp : p.Sound host) {plan : StepPlan}
    {bs : List (List CompiledStep)} (hmem : .mk plan (some bs) ∈ p.flow.steps)
    (hfirst : plan.id ∉ p.completed) : Fresh (branchIds bs) p.state.acc := by
  intro k hk
  have hids : k ∈ stepIds (.mk plan (some bs)) := mem_cons_of_mem _ hk
  refine eq_none_iff_forall_ne_some.mpr fun v hv ↦ ?_
  rcases hp.clean.others k v hv with rfl | hdone
  · exact (hp.validated.notMem_stepIds hmem).1 hids
  · obtain ⟨c, hc, hkc, hsub⟩ := hp.completed k hdone
    -- two steps of a flow share no id
    have hstep : c = .mk plan (some bs) := by
      by_contra hne
      have hpair := hp.validated.nodup
      rw [stepsIds_eq_flatMap, nodup_flatMap] at hpair
      have : Std.Symm (Function.onFun List.Disjoint stepIds) := ⟨fun _ _ h _ hb ha ↦ h ha hb⟩
      exact hpair.2.forall hc hmem hne hkc hids
    rw [hstep] at hsub
    exact hfirst (hsub mem_cons_self)

/-! ## Routing -/

theorem route_of_forall {sealed : SealedFlow} {es : List SealedEntry}
    (hes : ∀ e ∈ es, e.Sound sealed) (hdefault : ∃ e ∈ es, e.when? = none) (f : CompiledFlow)
    (plan : StepPlan) (st : ExecState) :
    (∃ index < sealed.steps.length,
      route f plan st (es.map (SealedEntry.plan wafer)) = .ok (some (.step index))) ∨
    (∃ other ≠ sealed.id,
      route f plan st (es.map (SealedEntry.plan wafer)) = .ok (some (.flow other))) ∨
    ∃ err, route f plan st (es.map (SealedEntry.plan wafer)) = .error err ∧
      ∃ e ∈ es, ∃ w expr message, e.when? = some (w, .ok expr) ∧
        evalExpr wafer.compare (resolveSegments wafer.host st.acc.get) expr = .error message := by
  induction es with
  | nil =>
    obtain ⟨e, he, -⟩ := hdefault
    exact absurd he not_mem_nil
  | cons e es ih =>
    obtain ⟨hsound, hsounds⟩ := forall_mem_cons.mp hes
    have htaken : ∀ r, r = (Except.ok (some (e.plan wafer).target) : Except WaferError _) →
        (∃ index < sealed.steps.length, r = .ok (some (.step index))) ∨
          ∃ other ≠ sealed.id, r = .ok (some (.flow other)) := by
      rintro r rfl
      rcases hsound.target with ⟨i, hi, htarget⟩ | ⟨other, hne, htarget⟩
      · exact .inl ⟨i, hi, by rw [SealedEntry.plan, htarget]⟩
      · exact .inr ⟨other, hne, by rw [SealedEntry.plan, htarget]⟩
    rw [map_cons, route]
    cases hwhen : e.when? with
    | none =>
      have hplan : (e.plan wafer).when? = none := by rw [SealedEntry.plan, hwhen, map_none]
      rw [hplan]
      exact (htaken _ rfl).imp_right .inl
    | some condition =>
      obtain ⟨w, c⟩ := condition
      obtain ⟨expr, rfl⟩ := hsound.condition w c hwhen
      have hplan : (e.plan wafer).when? =
          some (w, CompiledCondition.eval wafer.host wafer.compare (.ok expr)) := by
        rw [SealedEntry.plan, hwhen, map_some]
      rw [hplan]
      dsimp only
      cases heval : evalExpr wafer.compare (resolveSegments wafer.host st.acc.get) expr with
      | error message =>
        rw [CompiledCondition.eval, heval]
        exact .inr (.inr ⟨_, rfl, e, mem_cons_self, w, expr, message, hwhen, heval⟩)
      | ok v =>
        obtain ⟨b, hb⟩ : ∃ b,
            CompiledCondition.eval wafer.host wafer.compare (.ok expr) st.acc.get = .ok b := by
          rw [CompiledCondition.eval, heval]
          exact ⟨_, rfl⟩
        rw [hb]
        cases b with
        | true => exact (htaken _ rfl).imp_right .inl
        | false =>
          -- the default entry is further down the list
          have hrest : ∃ e ∈ es, e.when? = none := by
            obtain ⟨d, hd, hnone⟩ := hdefault
            rcases mem_cons.mp hd with rfl | hd
            · exact absurd (hwhen.symm.trans hnone) (some_ne_none _)
            · exact ⟨d, hd, hnone⟩
          refine (ih hsounds hrest).imp_right (Or.imp_right ?_)
          rintro ⟨err, herr, d, hd, hfail⟩
          exact ⟨err, herr, d, mem_cons_of_mem _ hd, hfail⟩

def JoinsKeepAll (env : StepEnv) (plan : StepPlan) (bs : List (List CompiledStep))
    (st : ExecState) (ids : List String) : Prop :=
  JoinKeepsAll env bs st ∧
  ∀ c cs rest st' ids', Inside env (.mk plan (some bs)) st ids (.mk c (some cs) :: rest) st' ids' →
    JoinKeepsAll env cs st'

theorem joinsKeepAll_of_fresh {plan : StepPlan} {bs : List (List CompiledStep)}
    (hnodup : (stepIds (.mk plan (some bs))).Nodup) (heach : "each" ∉ stepIds (.mk plan (some bs)))
    (hfresh : Fresh (branchIds bs) st.acc) : JoinsKeepAll env plan bs st ids := by
  refine ⟨joinKeepsAll_of_fresh (fun h ↦ heach (mem_cons_of_mem _ h)) hfresh,
    fun c cs rest st' ids' hin ↦ ?_⟩
  have hsub := hin.stepIds_sublist.subset
  refine joinKeepsAll_of_fresh (fun h ↦ heach (hsub (mem_cons_of_mem _ h))) ?_
  refine (hin.fresh hnodup heach hfresh).mono fun k hk ↦ ?_
  rw [stepsIds]
  exact mem_append_left _ (mem_cons_of_mem _ hk)

/-- **What the executor can rely on for a validated flow.** The stored plan has no error in it. A
step that routes takes an entry, unless one of its conditions fails to evaluate. In every run, when
a step starts and no id of its branches is visible, as on the first visit of the step, no join in
the step drops anything. -/
theorem validated_sound (hflows : ∀ id f, flows id = some f → validate wafer.reader f = .ok ())
    (hflow : validate wafer.reader flow = .ok ()) :
    (compileFlow wafer flow).Sound ∧
    (∀ step ∈ (flowPlan wafer flow).steps, ∀ entries, step.plan.next = some entries → ∀ st,
      (∃ index < (flowPlan wafer flow).steps.length,
        route (flowPlan wafer flow) step.plan st entries = .ok (some (.step index))) ∨
      (∃ other ≠ flow.id,
        route (flowPlan wafer flow) step.plan st entries = .ok (some (.flow other))) ∨
      ∃ entry ∈ entries, ∃ w eval message,
        entry.when? = some (w, eval) ∧ eval st.acc.get = .error message) ∧
    ∀ msg input as s p f current routed run plan bs,
      Actions.run (placedStep (compiledFlows wafer flows) wafer.host)
        (runPlan (flowPlan wafer flow) msg input, none) as = some (s, some p) →
      s.phase = .running f current routed run → f.steps[current]? = some (.mk plan (some bs)) →
      (plan.id ∉ p.completed → ∀ k ∈ branchIds bs, p.state.acc.get k = none) ∧
      ((∀ k ∈ branchIds bs, p.state.acc.get k = none) →
        ∀ maxSteps, JoinsKeepAll ⟨f, wafer.host, maxSteps⟩ plan bs p.state p.completed) := by
  have hsound := compileFlow_sound (validate_eq_ok.mp hflow)
  refine ⟨hsound, fun step hstep entries hentries st ↦ ?_,
    fun msg input as s p f current routed run plan bs hrun hphase hstep ↦ ?_⟩
  · obtain ⟨t, ht, rfl⟩ := List.mem_map.mp hstep
    rw [plan_stepPlan] at hentries ⊢
    obtain ⟨es, hes, rfl⟩ := map_eq_some_iff.mp hentries
    have hnode : t.head.Sound (compileFlow wafer flow) := by
      refine hsound.nodes _ (mem_flatMap.mpr ⟨t, ht, ?_⟩)
      rw [Branched.heads_eq]
      exact mem_cons_self
    have hlength : (flowPlan wafer flow).steps.length = (compileFlow wafer flow).steps.length :=
      length_map _
    rw [hlength]
    refine (route_of_forall (hnode.entries es hes) (hnode.default es hes) _ _ st).imp_right
      (Or.imp_right ?_)
    rintro ⟨err, -, e, he, w, expr, message, hwhen, heval⟩
    refine ⟨e.plan wafer, List.mem_map_of_mem he, w,
      CompiledCondition.eval wafer.host wafer.compare (.ok expr), message, ?_, ?_⟩
    · rw [SealedEntry.plan, hwhen, map_some]
    · rw [CompiledCondition.eval, heval]
      rfl
  · have hplaced := sound_of_run hflows hflow hrun
    have hp := hplaced.good
    rw [hphase] at hplaced
    obtain ⟨q, step, m, mode, c, hq, -, rfl, -⟩ := hplaced
    obtain rfl := some.inj hq
    have hmem := List.mem_of_getElem? hstep
    refine ⟨fun hfirst ↦ hp.fresh hmem hfirst, fun hfresh maxSteps ↦ ?_⟩
    exact joinsKeepAll_of_fresh (hp.validated.nodup.sublist (stepIds_sublist hmem))
      (hp.validated.notMem_stepIds hmem).2 hfresh

open Documents in
theorem validated_sound_counting :
    (compileFlow runtime counting).Sound ∧
    ∃ s p run plan b, Actions.run move (start counting) [.enter 0] = some (s, some p) ∧
      s.phase = .running (flowPlan runtime counting) 0 false run ∧
      (flowPlan runtime counting).steps[0]? = some (.mk plan (some [b])) ∧
      JoinsKeepAll ⟨flowPlan runtime counting, runtime.host, 1000⟩ plan [b] p.state
        p.completed := by
  obtain ⟨hsound, -, hjoins⟩ := @validated_sound runtime (fun _ ↦ none) counting
    (fun _ _ h ↦ absurd h.symm (some_ne_none _)) rfl
  refine ⟨hsound, _, _, _, _, _, rfl, rfl, rfl, ?_⟩
  obtain ⟨hfirst, hkeep⟩ := hjoins ⟨"first", []⟩ (.ok [49]) [.enter 0] _ _
    (flowPlan runtime counting) 0 false _ _ _ rfl rfl rfl
  exact hkeep (hfirst not_mem_nil) 1000

open Documents in
/-- **A join drops an entry of a validated flow.** The counting step routes to itself, so on its
second visit the id of its branch is visible, and what the branch counts then is dropped. -/
theorem join_drops_on_secondVisit :
    validate runtime.reader counting = .ok () ∧
    ∃ s p run plan b, Actions.run move (start counting) firstVisit = some (s, some p) ∧
      s.phase = .running (flowPlan runtime counting) 0 true run ∧
      (flowPlan runtime counting).steps[0]? = some (.mk plan (some [b])) ∧
      ¬JoinsKeepAll ⟨flowPlan runtime counting, runtime.host, 1000⟩ plan [b] p.state
        p.completed := by
  refine ⟨rfl, _, _, _, _, _, rfl, rfl, rfl, fun h ↦ ?_⟩
  have hend := h.1 _ mem_cons_self _
    ⟨_, _, TransferChain.answerWith RetryFlow.blocks, .new, _,
      @steps_of_run _ _ _ _ _ _ _ _ _ _ [([], 0), ([], 0), ([], 0), ([], 0)] rfl⟩ .new
  -- the branch counted two, and the filter drops it
  have hcount := congrFun (congrArg Accumulator.data hend) "count"
  have hkept : (none : Option Json) = some RetryFlow.two := hcount
  exact absurd hkept.symm (some_ne_none _)

end Runs

end WaferRun
