import WaferRun.Flow.ChainBounds
import WaferRun.Flow.Sequential
import WaferRun.Lib.Ensures

/-!
# What stands between two steps

`Sequential` says what a step means if nothing interferes with it. Here is what holds of every run:
a step that does not stop the flow wrote the ids of itself and of its branches into the topmost
layer of the accumulator, and nothing else (`writesOnly_of_mayEnd`). The binding of a fan-out is
gone, whether its invocations failed or not.

A boundary is a place where no step of a strand runs. On the main strand of a flow it is what
`placedStep` keeps track of; in a branch it is what `Inside` reaches.
-/

open List Option

namespace WaferRun

open Strand WaferRun.Sequential

/-! ## What a step writes, in every run -/

section Pieces

variable {env : StepEnv} {Q : StepResult → Prop} (herr : ∀ e, Q (.error e))

include herr

theorem ensures_checkBudget {st : ExecState} {k : Run} (h : Ensures k Q) :
    Ensures (checkBudget env st k) Q := by
  refine ensures_perform fun charged ↦ ?_
  split
  · exact h
  · exact herr _

theorem ensures_checkCancelDeadline {st : ExecState} {k : Run} (h : Ensures k Q) :
    Ensures (checkCancelDeadline env st k) Q := by
  refine ensures_perform fun answer ↦ ?_
  split
  · exact h
  · exact herr _
  · exact herr _

theorem ensures_runInvocation {step : StepPlan} {mode : ResponseMode} {st : ExecState}
    {k : ExecState → InvocationOutcome → Run}
    (hk : ∀ st' o, st'.acc = st.acc → Ensures (k st' o) Q) :
    Ensures (runInvocation env step mode st k) Q := by
  apply ensures_checkCancelDeadline herr
  split
  · exact herr _
  · rename_i st₁ hin
    split
    · exact herr _
    · refine ensures_perform fun reply ↦ ?_
      split
      · exact herr _
      · rename_i st₂ o hreply
        exact hk st₂ o (by rw [acc_applyReply hreply, acc_resolveInput hin])

theorem ensures_runItems {step : StepPlan} {k : ExecState → List Json → Run} (items : List Json) :
    ∀ {index : ℕ} {results : List Json} {st : ExecState},
      (∀ st' results', st'.acc.parents = st.acc.parents →
        (∀ key, key ≠ "each" → st'.acc.data key = st.acc.data key) → Ensures (k st' results') Q) →
      Ensures (runItems env step k index items results st) Q := by
  induction items with
  | nil => exact fun hk ↦ hk _ _ rfl fun _ _ ↦ rfl
  | cons item items ih =>
    intro index results st hk
    apply ensures_checkBudget herr
    apply ensures_checkCancelDeadline herr
    split
    · exact herr _
    · rename_i st₁ hbody
      refine ensures_runInvocation herr fun st₂ o hacc ↦ ih fun st' results' hparents hdata ↦ ?_
      rw [hacc, acc_itemBody hbody] at hparents
      refine hk st' results' hparents fun key hkey ↦ ?_
      rw [hdata key hkey, hacc, acc_itemBody hbody]
      exact Function.update_of_ne hkey _ _

theorem ensures_runEach {step : StepPlan} {each : CompiledEach} {st : ExecState}
    {k : ExecState → Run} (hid : step.id ≠ "each")
    (hk : ∀ st', WritesOnly [step.id] st.acc st'.acc → Ensures (k st') Q) :
    Ensures (runEach env step each st k) Q := by
  rw [runEach]
  split
  · refine ensures_runItems herr _ fun st₁ results hparents hdata ↦ ?_
    -- the binding is removed before anything else is written
    have hremoved : WritesOnly [step.id] st.acc (st₁.acc.remove "each") := by
      refine ⟨hparents, fun key _ hkey ↦ ?_, fun _ ↦ ?_⟩
      · exact (Function.update_of_ne hkey _ _).trans (hdata key hkey)
      · exact Function.update_self "each" none st₁.acc.data
    dsimp only
    split
    · exact hk _ (hremoved.trans (writesOnly_set (mem_singleton_self _) hid _ _))
    · exact herr _
  · exact herr _
  · exact herr _

theorem ensures_runBlock {step : StepPlan} {mode : ResponseMode} {st : ExecState}
    {k : ExecState → Run} (hid : step.id ≠ "each")
    (hk : ∀ st', WritesOnly [step.id] st.acc st'.acc → Ensures (k st') Q) :
    Ensures (runBlock env step mode st k) Q := by
  rw [runBlock]
  split
  · exact ensures_runEach herr hid hk
  · refine ensures_runInvocation herr fun st' o hacc ↦ ?_
    split
    · refine hk _ ?_
      dsimp only
      rw [hacc]
      exact writesOnly_set (mem_singleton_self _) hid _ _
    · exact hk _ (hacc ▸ .refl _ _)

end Pieces

theorem writesOnly_mergeDelta {ids : List String} (heach : "each" ∉ ids)
    {parent acc : Accumulator} {delta : Lookup} (h : ∀ k v, delta k = some v → k ∈ ids) :
    WritesOnly ids acc (mergeDelta parent acc delta) := by
  have hnone : ∀ k ∉ ids, delta k = none := fun k hk ↦
    eq_none_iff_forall_ne_some.mpr fun v hv ↦ hk (h k v hv)
  refine ⟨rfl, fun k hk _ ↦ ?_, fun hacc ↦ ?_⟩
  · simp [mergeDelta, hnone k hk]
  · simp [mergeDelta, hnone _ heach, hacc]

theorem writesOnly_mergeBranches {ids : List String} (heach : "each" ∉ ids) {parent : Accumulator}
    {outcomes : List StepResult}
    (h : ∀ own, .ok own ∈ outcomes → WritesOnly ids parent.branchFrom own.acc) :
    WritesOnly ids parent (mergeBranches parent outcomes) := by
  suffices hall : ∀ acc, WritesOnly ids acc (outcomes.foldl (mergeOutcome parent) acc) from
    hall parent
  induction outcomes with
  | nil => exact fun acc ↦ .refl ids acc
  | cons r outcomes ih =>
    intro acc
    refine WritesOnly.trans ?_ (ih (fun own hown ↦ h own (mem_cons_of_mem _ hown)) _)
    cases r with
    | error e => exact .refl ids acc
    | ok own =>
      exact writesOnly_mergeDelta heach fun k v hv ↦
        mem_of_data_branch (h own mem_cons_self) hv

def StepWrites (env : StepEnv) (s : CompiledStep) : Prop :=
  ∀ {Q : StepResult → Prop}, (∀ e, Q (.error e)) → ∀ mode st k,
    (∀ st', WritesOnly (stepIds s) st.acc st'.acc → Ensures (k st') Q) →
      Ensures (runStep env s mode st k) Q

theorem ensures_runBranchSteps {env : StepEnv} {Q : StepResult → Prop} (herr : ∀ e, Q (.error e))
    {ss : List CompiledStep} (hss : ∀ s ∈ ss, StepWrites env s) {st : ExecState}
    {k : ExecState → Run}
    (hk : ∀ st', WritesOnly (stepsIds ss) st.acc st'.acc → Ensures (k st') Q) :
    Ensures (runBranchSteps env ss st k) Q := by
  induction ss generalizing st with
  | nil => exact hk st (.refl _ _)
  | cons s ss ih =>
    rw [forall_mem_cons] at hss
    rw [stepsIds] at hk
    rw [runBranchSteps]
    split
    · exact herr _
    · refine hss.1 herr _ _ _ fun st₁ h₁ ↦ ih hss.2 fun st₂ h₂ ↦ hk st₂ ?_
      exact (h₁.mono (subset_append_left _ _)).trans (h₂.mono (subset_append_right _ _))

theorem stepWrites (env : StepEnv) (s : CompiledStep) (heach : "each" ∉ stepIds s) :
    StepWrites env s := by
  induction s using CompiledStep.induct with
  | h plan parallel ih =>
    intro Q herr mode st k hk
    rw [stepIds, mem_cons, not_or] at heach
    have hblock : ∀ st₁, WritesOnly (parallelIds parallel) st.acc st₁.acc →
        Ensures (runBlock env plan mode st₁ k) Q := fun st₁ h₁ ↦
      ensures_runBlock herr (Ne.symm heach.1) fun st₂ h₂ ↦ hk st₂
        ((h₁.mono (subset_cons_self _ _)).trans
          (h₂.mono (cons_subset_cons _ (nil_subset _))))
    rw [runStep]
    apply ensures_checkBudget herr
    apply ensures_checkCancelDeadline herr
    cases parallel with
    | none => exact hblock st (.refl _ _)
    | some bs =>
      rw [parallelIds] at heach
      have hbranch : ∀ b ∈ bs, ∀ s ∈ b, StepWrites env s := fun b hb s hs ↦ by
        refine ih bs rfl b hb s hs fun hmem ↦ heach.2 ?_
        rw [branchIds_eq_flatMap]
        exact mem_flatMap.mpr ⟨b, hb, mem_flatMap.mpr ⟨s, hs, hmem⟩⟩
      refine ensures_fork (fun r ↦ ∀ own, r = .ok own →
        WritesOnly (branchIds bs) st.acc.branchFrom own.acc) ?_ fun rs hrs ↦ ?_
      · rw [branchRuns_eq_map]
        intro x hx
        obtain ⟨b, hb, rfl⟩ := List.mem_map.mp hx
        refine ensures_runBranchSteps (fun e own h ↦ by cases h) (hbranch b hb)
          fun st' h' own h ↦ ?_
        obtain rfl := Except.ok.inj h
        refine h'.mono ?_
        rw [branchIds_eq_flatMap, stepsIds_eq_flatMap]
        exact fun id hid ↦ mem_flatMap.mpr ⟨b, hb, hid⟩
      · rw [joinBranches]
        split
        · exact herr _
        · exact hblock _ (writesOnly_mergeBranches heach.2 fun own hown ↦ hrs _ hown own rfl)

def stepRun (env : StepEnv) (s : CompiledStep) (mode : ResponseMode) (st : ExecState) : Run :=
  runStep env s mode st fun st ↦ .done (.ok st)

/-- **What a step leaves** if it does not stop the flow, in every run. -/
theorem writesOnly_of_mayEnd {env : StepEnv} {s : CompiledStep} (heach : "each" ∉ stepIds s)
    {mode : ResponseMode} {st st' : ExecState} (h : MayEnd (stepRun env s mode st) (.ok st')) :
    WritesOnly (stepIds s) st.acc st'.acc := by
  have hensures : Ensures (stepRun env s mode st) fun r ↦
      ∀ st', r = .ok st' → WritesOnly (stepIds s) st.acc st'.acc := by
    refine stepWrites env s heach (fun e st' h ↦ by cases h) _ _ _ fun st₁ h₁ st' h ↦ ?_
    obtain rfl := Except.ok.inj h
    exact h₁
  exact hensures.of_mayEnd h st' rfl

theorem writesOnly_of_mayEnd_branch {env : StepEnv} {b : List CompiledStep}
    (heach : "each" ∉ stepsIds b) {st st' : ExecState}
    (h : MayEnd (runBranchSteps env b st fun st ↦ .done (.ok st)) (.ok st')) :
    WritesOnly (stepsIds b) st.acc st'.acc := by
  rw [stepsIds_eq_flatMap] at heach
  have hensures : Ensures (runBranchSteps env b st fun st ↦ .done (.ok st)) fun r ↦
      ∀ st', r = .ok st' → WritesOnly (stepsIds b) st.acc st'.acc := by
    refine ensures_runBranchSteps (fun e st' h ↦ by cases h) (fun s hs ↦ ?_) fun st₁ h₁ st' h ↦ ?_
    · exact stepWrites env s fun hmem ↦ heach (mem_flatMap.mpr ⟨s, hs, hmem⟩)
    · obtain rfl := Except.ok.inj h
      exact h₁
  exact hensures.of_mayEnd h st' rfl

/-! ## The boundaries of a flow -/

/-- `Inside env s st ids rest st' ids'`: while the step `s` runs from the state `st`, one of its
branches, at any depth, comes to a boundary in the state `st'` with the steps `rest` still to run.
Before `s` the steps `ids` had completed; `ids'` are those that have completed in the branch or
before a fork around it. -/
inductive Inside (env : StepEnv) : CompiledStep → ExecState → List String →
    List CompiledStep → ExecState → List String → Prop
  | fork {plan : StepPlan} {bs : List (List CompiledStep)} {b : List CompiledStep} {st : ExecState}
      {ids : List String} (hb : b ∈ bs) :
      Inside env (.mk plan (some bs)) st ids b (branchState st) ids
  | next {s c : CompiledStep} {st st₁ st₂ : ExecState} {ids ids₁ : List String}
      {rest : List CompiledStep} (h : Inside env s st ids (c :: rest) st₁ ids₁)
      (hend : MayEnd (stepRun env c .collect st₁) (.ok st₂)) :
      Inside env s st ids rest st₂ (ids₁ ++ stepIds c)
  | nested {s c : CompiledStep} {st st₁ st₂ : ExecState} {ids ids₁ ids₂ : List String}
      {rest rest' : List CompiledStep} (h : Inside env s st ids (c :: rest) st₁ ids₁)
      (h' : Inside env c st₁ ids₁ rest' st₂ ids₂) : Inside env s st ids rest' st₂ ids₂

/-- The last boundary of the main strand: the flow, the body it started with, the state, and the
ids of the steps that have completed, those in branches that joined included. -/
structure Place where
  flow : CompiledFlow
  body : Bytes
  state : ExecState
  completed : List String

def Place.start (host : Host) (flow : CompiledFlow) (body : Bytes) (msg : Message)
    (record : ResponderRecord) : Place where
  flow := flow
  body := body
  state :=
    { acc :=
        if flow.usesAccumulator then Accumulator.new.set "input" ((host.fromSlice body).getD .null)
        else .new
      body := body
      msg := msg
      responderRecord := record }
  completed := []

def Place.after (place : Place) (step : CompiledStep) (st : ExecState) : Place :=
  { place with state := st, completed := place.completed ++ stepIds step }

def placeAfter (host : Host) (s : ChainState) (place : Option Place) : ChainAct → Option Place
  | .enter _ =>
    match s.phase with
    | .entering flow msg (.ok body) record => some (.start host flow body msg record)
    | _ => none
  | .work _ _ => place
  | .advance =>
    match s.phase with
    | .running flow current _ (.done (.ok st)) =>
      place.bind fun p ↦ (flow.steps[current]?).map fun step ↦ p.after step st
    | _ => place

/-- The chain, with its last boundary kept beside it. -/
def placedStep (wafer : String → Option CompiledFlow) (host : Host)
    (s : ChainState × Option Place) (a : ChainAct) : Option (ChainState × Option Place) :=
  (chainStep wafer host s.1 a).map fun t ↦ (t, placeAfter host s.1 s.2 a)

section Places

variable {wafer : String → Option CompiledFlow} {host : Host} {first : CompiledFlow}
variable {Good : Place → Prop}

def OfChain (wafer : String → Option CompiledFlow) (first flow : CompiledFlow) : Prop :=
  flow = first ∨ ∃ id, wafer id = some flow

def Placed (wafer : String → Option CompiledFlow) (host : Host) (first : CompiledFlow)
    (Good : Place → Prop) (now : TransferChain × List (Σ e, Answer e)) (phase : Phase)
    (place : Option Place) : Prop :=
  match phase with
  | .entering flow _ _ _ => OfChain wafer first flow ∧ ∀ p ∈ place, Good p
  | .running flow current _ run =>
    ∃ p step m mode c, place = some p ∧ Good p ∧ p.flow = flow ∧
      flow.steps[current]? = some step ∧
      Steps (traced TransferChain.answer) c (stepRun ⟨flow, host, m⟩ step mode p.state) now run
  | .finished _ => ∀ p ∈ place, Good p

variable {now : TransferChain × List (Σ e, Answer e)}

theorem placed_startStep {p : Place} (hp : Good p) (chain : TransferChain) (current : ℕ)
    (routed : Bool) :
    Placed wafer host first Good now (startStep host chain p.flow current routed p.state)
      (some p) := by
  rw [startStep]
  split
  · rintro q ⟨⟩
    exact hp
  · rename_i step hstep
    exact ⟨p, step, _, _, now, rfl, hp, rfl, hstep, .refl⟩

theorem placed_afterStep {p : Place} (hp : Good p) (chain : TransferChain) (current : ℕ)
    (routed : Bool) (step : StepPlan) :
    Placed wafer host first Good now
      (afterStep wafer host chain p.flow current routed step p.state) (some p) := by
  have hdone : ∀ output, Placed wafer host first Good now (.finished output) (some p) := by
    rintro output q ⟨⟩
    exact hp
  rw [afterStep]
  split
  · split
    · exact hdone _
    · exact placed_startStep hp _ _ _
  · split
    · exact hdone _
    · exact placed_startStep hp _ _ _
    · exact hdone _
    · split
      · exact hdone _
      · rename_i hflow
        refine ⟨.inr ⟨_, hflow⟩, ?_⟩
        rintro q ⟨⟩
        exact hp
    · exact placed_startStep hp _ _ _
    · exact placed_startStep hp _ _ _

theorem placed_step
    (hstart : ∀ flow body msg record, OfChain wafer first flow →
      Good (.start host flow body msg record))
    (hafter : ∀ p step m mode st, Good p → step ∈ p.flow.steps →
      MayEnd (stepRun ⟨p.flow, host, m⟩ step mode p.state) (.ok st) → Good (p.after step st))
    {s t : ChainState} {place : Option Place} {a : ChainAct}
    (hs : Placed wafer host first Good (s.chain, s.trace) s.phase place)
    (h : chainStep wafer host s a = some t) :
    Placed wafer host first Good (t.chain, t.trace) t.phase (placeAfter host s place a) := by
  obtain ⟨chain, trace, entered, phase⟩ := s
  rcases a with now | ⟨position, moment⟩ | _ <;> rw [chainStep] at h
  · split at h
    · rename_i flow msg input record hphase
      obtain rfl : phase = _ := hphase
      obtain rfl := some.inj h
      cases input with
      | error err => exact fun p hp ↦ absurd hp (not_mem_none p)
      | ok body => exact placed_startStep (hstart flow body msg record hs.1) _ _ _
    · exact absurd h (some_ne_none _).symm
  · split at h
    · rename_i flow current routed run hphase
      obtain rfl : phase = _ := hphase
      obtain ⟨⟨⟨chain', trace'⟩, y⟩, hmove, rfl⟩ := map_eq_some_iff.mp h
      obtain ⟨p, step, m, mode, c, hplace, hp, hflow, hget, hrun⟩ := hs
      exact ⟨p, step, m, mode, c, hplace, hp, hflow, hget, hrun.tail (step_of_stepAt hmove)⟩
    · exact absurd h (some_ne_none _).symm
  · split at h
    · rename_i flow current routed stop st hphase
      obtain rfl : phase = _ := hphase
      obtain rfl := some.inj h
      obtain ⟨p, -, -, -, -, rfl, hp, -⟩ := hs
      rintro q ⟨⟩
      exact hp
    · rename_i flow current routed st hphase
      obtain rfl : phase = _ := hphase
      obtain ⟨step, hstep, rfl⟩ := map_eq_some_iff.mp h
      obtain ⟨p, step', m, mode, c, rfl, hp, rfl, hget, hrun⟩ := hs
      obtain rfl := some.inj (hstep.symm.trans hget)
      have hgood : Good (p.after step st) :=
        hafter p step m mode st hp (List.mem_of_getElem? hstep) ⟨_, _, _, _, _, hrun⟩
      have hplace : placeAfter host ⟨chain, trace, entered, .running p.flow current routed
          (.done (.ok st))⟩ (some p) .advance = some (p.after step st) := by
        simp only [placeAfter, bind_some, hstep, map_some]
      rw [hplace]
      exact placed_afterStep hgood _ _ _ _
    · exact absurd h (some_ne_none _).symm

/-- **The rule for boundaries.** What holds when a flow starts, and is kept by every step that does
not stop the flow, holds at every boundary of every run. -/
theorem placed_run
    (hstart : ∀ flow body msg record, OfChain wafer first flow →
      Good (.start host flow body msg record))
    (hafter : ∀ p step m mode st, Good p → step ∈ p.flow.steps →
      MayEnd (stepRun ⟨p.flow, host, m⟩ step mode p.state) (.ok st) → Good (p.after step st))
    {msg : Message} {input : Except WaferError Bytes} {as : List ChainAct}
    {s : ChainState} {place : Option Place}
    (h : Actions.run (placedStep wafer host) (runPlan first msg input, none) as = some (s, place)) :
    Placed wafer host first Good (s.chain, s.trace) s.phase place := by
  have hinit : Placed wafer host first Good (.new, []) (runPlan first msg input).phase none :=
    ⟨.inl rfl, fun p hp ↦ absurd hp (not_mem_none p)⟩
  refine Actions.run_invariant
    (I := fun s ↦ Placed wafer host first Good (s.1.chain, s.1.trace) s.1.phase s.2) ?_ hinit h
  rintro ⟨s, place⟩ a ⟨t, place'⟩ hs hstep
  obtain ⟨t', ht, heq⟩ := map_eq_some_iff.mp hstep
  obtain ⟨rfl, rfl⟩ := Prod.mk.inj heq
  exact placed_step hstart hafter hs ht

end Places

end WaferRun
