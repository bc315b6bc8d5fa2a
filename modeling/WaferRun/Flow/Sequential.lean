import Mathlib.Data.List.Nodup
import WaferRun.Flow.Chain
import WaferRun.Lib.Fallible

/-!
# What a step means

The reference for the executor is a step without concurrency and without limits: the blocks are a
function from calls to replies, branches run one after another in the order they are written, each
from the state before the first of them, and every entry a branch wrote is kept.

`Sequential.value_runStep` compares the executor with the reference. The two differ in one place:
the executor keeps an entry of a branch only if its id was not in the accumulator at the fork. So
the comparison asks that the ids of the branches are fresh there, and that they are unique, which
makes them fresh at the inner forks as well.
-/

open List

namespace WaferRun

open Strand

variable {ids : List String} {plan : StepPlan} {st st' : ExecState} {acc : Accumulator}

/-- The answers of surroundings that never stop the executor. -/
def calm (blocks : Call → Reply) : ∀ e, Answer e
  | .charge => true
  | .check => .ok
  | .invoke call => blocks call

namespace Sequential

variable (blocks : Call → Reply) (env : StepEnv)

def invocation (step : StepPlan) (mode : ResponseMode) (st : ExecState) :
    Except (ShortCircuit × ExecState) (ExecState × InvocationOutcome) :=
  match resolveInput env step st with
  | .error err => .error (.error err, st)
  | .ok st =>
    match step.target with
    | none => .error (.error (.new .unimplemented (stepLabel step ++ " is not registered")), st)
    | some target =>
      applyReply env step mode st (blocks ⟨env.flow.id, target, step.config, st.msg, st.body⟩)

def items (step : StepPlan) : ℕ → List Json → List Json → ExecState →
    Except (ShortCircuit × ExecState) (ExecState × List Json)
  | _, [], results, st => .ok (st, results)
  | index, item :: rest, results, st =>
    match itemBody env step index item st with
    | .error err => .error (.error err, st)
    | .ok st =>
      (invocation blocks env step .collect
        { st with acc := st.acc.set "each" (eachBinding item index) }).bind fun (st, outcome) ↦
          items step (index + 1) rest (results ++ [outputValue env st outcome]) st

/-- Run the block of a step once for each item of an array. -/
def each (step : StepPlan) (each : CompiledEach) (st : ExecState) : StepResult :=
  match each.path st.acc.get with
  | .ok (.array xs) =>
    (items blocks env step 0 xs [] st).bind fun (st, results) ↦
      let st := { st with acc := st.acc.remove "each" }
      match env.host.toVec (.array results) with
      | .ok bytes => .ok { st with body := bytes, acc := st.acc.set step.id (.array results) }
      | .error e =>
        .error (.error (.new .internal
          ("failed to serialize results of step '" ++ step.id ++ "': " ++ e)), st)
  | .ok other =>
    .error (.error (.new .invalidArgument ("each expression '" ++ each.raw ++ "' in step '" ++
      step.id ++ "' must resolve to an array, got " ++ env.host.display other)), st)
  | .error e =>
    .error (.error (.new .invalidArgument ("each expression '" ++ each.raw ++ "' in step '" ++
      step.id ++ "' failed to resolve: " ++ e)), st)

def block (step : StepPlan) (mode : ResponseMode) (st : ExecState) : StepResult :=
  match step.each with
  | some e => each blocks env step e st
  | none =>
    (invocation blocks env step mode st).map fun (st, outcome) ↦
      if step.input.isSome then
        { st with acc := st.acc.set step.id (outputValue env st outcome) }
      else st

/-- Add every entry a branch wrote. -/
def keep (acc : Accumulator) (delta : Lookup) : Accumulator :=
  { acc with data := fun k ↦ (delta k).or (acc.data k) }

mutual

def step : CompiledStep → ResponseMode → ExecState → StepResult
  | .mk plan p, mode, st => (parallel p st).bind fun st ↦ block blocks env plan mode st
termination_by structural s => s

def parallel : Option (List (List CompiledStep)) → ExecState → StepResult
  | none, st => .ok st
  | some bs, st => branches bs st st.acc
termination_by structural p => p

/-- Run branches one after another from the state `st`, adding what they write to `acc`. -/
def branches : List (List CompiledStep) → ExecState → Accumulator → StepResult
  | [], st, acc => .ok { st with acc := acc }
  | b :: bs, st, acc =>
    match branchSteps b (branchState st) with
    | .error (stop, _) => .error (stop, st)
    | .ok own => branches bs st (keep acc own.acc.intoData)
termination_by structural bs => bs

def branchSteps : List CompiledStep → ExecState → StepResult
  | [], st => .ok st
  | s :: ss, st =>
    if s.plan.next.isSome then .error (.error (nextInBranchError s.plan), st)
    else (step s .collect st).bind fun st ↦ branchSteps ss st
termination_by structural ss => ss

end

/-! ## The executor without branches -/

variable {blocks : Call → Reply} {env : StepEnv}

theorem value_checkBudget (st : ExecState) (k : Run) :
    value (calm blocks) (checkBudget env st k) = value (calm blocks) k := rfl

theorem value_checkCancelDeadline (st : ExecState) (k : Run) :
    value (calm blocks) (checkCancelDeadline env st k) = value (calm blocks) k := rfl

theorem value_runInvocation (plan : StepPlan) (mode : ResponseMode) (st : ExecState)
    (k : ExecState → InvocationOutcome → Run) :
    value (calm blocks) (runInvocation env plan mode st k) =
      (invocation blocks env plan mode st).bind fun p ↦ value (calm blocks) (k p.1 p.2) := by
  rw [runInvocation, value_checkCancelDeadline, invocation]
  cases resolveInput env plan st with
  | error err => rfl
  | ok st =>
    cases plan.target with
    | none => rfl
    | some target =>
      rw [value_perform]
      simp only [calm]
      cases applyReply env plan mode st (blocks ⟨env.flow.id, target, plan.config, st.msg, st.body⟩)
        <;> rfl

theorem value_runItems (plan : StepPlan) (k : ExecState → List Json → Run) (xs : List Json) :
    ∀ (index : ℕ) (results : List Json) (st : ExecState),
      value (calm blocks) (runItems env plan k index xs results st) =
        (items blocks env plan index xs results st).bind
          fun p ↦ value (calm blocks) (k p.1 p.2) := by
  induction xs with
  | nil =>
    intro index results st
    rfl
  | cons item rest ih =>
    intro index results st
    rw [runItems, value_checkBudget, value_checkCancelDeadline, items]
    cases itemBody env plan index item st with
    | error err => rfl
    | ok st =>
      simp only [value_runInvocation]
      cases invocation blocks env plan .collect
        { st with acc := st.acc.set "each" (eachBinding item index) } with
      | error e => rfl
      | ok p => exact ih _ _ _

theorem value_runEach (plan : StepPlan) (e : CompiledEach) (st : ExecState)
    (k : ExecState → Run) :
    value (calm blocks) (runEach env plan e st k) =
      (each blocks env plan e st).bind fun st ↦ value (calm blocks) (k st) := by
  unfold runEach each
  cases e.path st.acc.get with
  | error e => rfl
  | ok found =>
    cases found with
    | array xs =>
      simp only [value_runItems]
      cases items blocks env plan 0 xs [] st with
      | error e => rfl
      | ok p =>
        simp only [Except.bind]
        cases env.host.toVec (.array p.2) <;> rfl
    | null | bool _ | number _ | string _ | object _ => rfl

theorem value_runBlock (plan : StepPlan) (mode : ResponseMode) (st : ExecState)
    (k : ExecState → Run) :
    value (calm blocks) (runBlock env plan mode st k) =
      (block blocks env plan mode st).bind fun st ↦ value (calm blocks) (k st) := by
  unfold runBlock block
  cases plan.each with
  | some e => exact value_runEach plan e st k
  | none =>
    simp only [value_runInvocation]
    cases invocation blocks env plan mode st with
    | error e => rfl
    | ok p =>
      simp only [Except.bind, Except.map]
      split <;> rfl

/-! ## What a step writes -/

/-- The accumulator changed only by writes of `ids` to its top layer, and a binding of `each` that
was not there before is gone again. -/
structure WritesOnly (ids : List String) (acc acc' : Accumulator) : Prop where
  parents : acc'.parents = acc.parents
  others : ∀ k, k ∉ ids → k ≠ "each" → acc'.data k = acc.data k
  each : acc.data "each" = none → acc'.data "each" = none

theorem WritesOnly.refl (ids : List String) (acc : Accumulator) : WritesOnly ids acc acc :=
  ⟨rfl, fun _ _ _ ↦ rfl, id⟩

theorem WritesOnly.trans {a b c : Accumulator} (h : WritesOnly ids a b) (h' : WritesOnly ids b c) :
    WritesOnly ids a c :=
  ⟨h'.parents.trans h.parents, fun k hk he ↦ (h'.others k hk he).trans (h.others k hk he),
    fun ha ↦ h'.each (h.each ha)⟩

theorem WritesOnly.mono {ids' : List String} {a b : Accumulator} (h : WritesOnly ids a b)
    (hsub : ids ⊆ ids') : WritesOnly ids' a b :=
  ⟨h.parents, fun k hk he ↦ h.others k (fun hmem ↦ hk (hsub hmem)) he, h.each⟩

theorem writesOnly_set {id : String} (hid : id ∈ ids) (he : id ≠ "each") (acc : Accumulator)
    (v : Json) : WritesOnly ids acc (acc.set id v) where
  parents := rfl
  others k hk _ := acc.data_set_of_ne v (by rintro rfl; exact hk hid)
  each h := (acc.data_set_of_ne v he.symm).trans h

theorem acc_applyReply {mode : ResponseMode} {reply : Reply} {o : InvocationOutcome}
    (h : applyReply env plan mode st reply = .ok (st', o)) : st'.acc = st.acc := by
  unfold applyReply at h
  split at h
  · cases h
  split at h
  · unfold applyCollected at h
    split at h
    · cases h
    split at h
    · cases h
      rfl
    · split at h <;> cases h
      rfl
    · cases h
    · cases h
    · cases h
      rfl
    · cases h
  · cases h

theorem acc_resolveInput (h : resolveInput env plan st = .ok st') : st'.acc = st.acc := by
  unfold resolveInput at h
  split at h
  · cases h
    rfl
  split at h
  · cases h
  split at h <;> cases h
  rfl

theorem acc_invocation {mode : ResponseMode} {o : InvocationOutcome}
    (h : invocation blocks env plan mode st = .ok (st', o)) : st'.acc = st.acc := by
  unfold invocation at h
  split at h
  · cases h
  · rename_i st₁ hin
    split at h
    · cases h
    · rw [acc_applyReply h, acc_resolveInput hin]

theorem acc_itemBody {index : ℕ} {item : Json} (h : itemBody env plan index item st = .ok st') :
    st'.acc = st.acc := by
  unfold itemBody at h
  split at h
  · cases h
    rfl
  split at h <;> cases h
  rfl

theorem acc_items {xs results results' : List Json} {index : ℕ}
    (h : items blocks env plan index xs results st = .ok (st', results')) :
    st'.acc.parents = st.acc.parents ∧ ∀ k, k ≠ "each" → st'.acc.data k = st.acc.data k := by
  induction xs generalizing index results st with
  | nil =>
    cases h
    exact ⟨rfl, fun _ _ ↦ rfl⟩
  | cons item rest ih =>
    rw [items] at h
    split at h
    · cases h
    · rename_i st₁ hbody
      obtain ⟨⟨st₂, o⟩, hinv, h⟩ := Fallible.bind_eq_ok.mp h
      obtain ⟨hp, hd⟩ := ih h
      rw [acc_invocation hinv] at hp hd
      rw [← acc_itemBody hbody]
      refine ⟨hp, fun k hk ↦ ?_⟩
      rw [hd k hk]
      exact Function.update_of_ne hk _ _

theorem writesOnly_each {e : CompiledEach} (hid : plan.id ≠ "each")
    (h : each blocks env plan e st = .ok st') : WritesOnly [plan.id] st.acc st'.acc := by
  unfold each at h
  split at h
  · obtain ⟨⟨st₁, results⟩, hitems, h⟩ := Fallible.bind_eq_ok.mp h
    obtain ⟨hp, hd⟩ := acc_items hitems
    dsimp only at h
    split at h <;> cases h
    refine WritesOnly.trans (b := st₁.acc.remove "each") ⟨hp, fun k _ hk ↦ ?_, fun _ ↦ ?_⟩
      (writesOnly_set (mem_singleton_self _) hid _ _)
    · exact (Function.update_of_ne hk _ _).trans (hd k hk)
    · exact Function.update_self "each" none st₁.acc.data
  · cases h
  · cases h

theorem writesOnly_block {mode : ResponseMode} (hid : plan.id ≠ "each")
    (h : block blocks env plan mode st = .ok st') : WritesOnly [plan.id] st.acc st'.acc := by
  unfold block at h
  split at h
  · exact writesOnly_each hid h
  · cases hinv : invocation blocks env plan mode st with
    | error e =>
      rw [hinv] at h
      cases h
    | ok p =>
      rw [hinv] at h
      cases h
      rw [← acc_invocation hinv]
      split
      · exact writesOnly_set (mem_singleton_self _) hid _ _
      · exact .refl _ _

theorem mem_of_data_branch {acc' : Accumulator} {k : String} {v : Json}
    (h : WritesOnly ids acc.branchFrom acc') (hk : acc'.data k = some v) : k ∈ ids := by
  by_contra hmem
  have hne : k ≠ "each" := by
    rintro rfl
    rw [h.each rfl] at hk
    cases hk
  rw [h.others k hmem hne] at hk
  cases hk

theorem writesOnly_keep {delta : Lookup} (h : ∀ k v, delta k = some v → k ∈ ids ∧ k ≠ "each") :
    WritesOnly ids acc (keep acc delta) where
  parents := rfl
  others k hk _ := by
    have hnone : delta k = none := Option.eq_none_iff_forall_ne_some.mpr fun v hv ↦ hk (h k v hv).1
    simp [keep, hnone]
  each he := by
    have hnone : delta "each" = none :=
      Option.eq_none_iff_forall_ne_some.mpr fun v hv ↦ (h _ v hv).2 rfl
    simp [keep, hnone, he]

def Writes (blocks : Call → Reply) (env : StepEnv) (s : CompiledStep) : Prop :=
  ∀ mode st st', "each" ∉ stepIds s → step blocks env s mode st = .ok st' →
    WritesOnly (stepIds s) st.acc st'.acc

theorem writesOnly_branchSteps {ss : List CompiledStep} (hss : ∀ s ∈ ss, Writes blocks env s)
    (heach : "each" ∉ stepsIds ss) (h : branchSteps blocks env ss st = .ok st') :
    WritesOnly (stepsIds ss) st.acc st'.acc := by
  induction ss generalizing st with
  | nil =>
    cases h
    exact .refl _ _
  | cons s ss ih =>
    rw [forall_mem_cons] at hss
    rw [stepsIds, mem_append, not_or] at heach
    rw [branchSteps] at h
    split at h
    · cases h
    · obtain ⟨st₁, hs, h⟩ := Fallible.bind_eq_ok.mp h
      have h₁ := hss.1 .collect st st₁ heach.1 hs
      have h₂ := ih hss.2 heach.2 h
      rw [stepsIds]
      exact (h₁.mono (subset_append_left _ _)).trans (h₂.mono (subset_append_right _ _))

theorem writesOnly_branches {bs : List (List CompiledStep)}
    (hbs : ∀ b ∈ bs, ∀ s ∈ b, Writes blocks env s) (heach : "each" ∉ branchIds bs)
    (h : branches blocks env bs st acc = .ok st') : WritesOnly (branchIds bs) acc st'.acc := by
  induction bs generalizing acc with
  | nil =>
    cases h
    exact .refl _ _
  | cons b bs ih =>
    rw [forall_mem_cons] at hbs
    rw [branchIds, mem_append, not_or] at heach
    rw [branches] at h
    split at h
    · cases h
    · rename_i own hown
      have hw := writesOnly_branchSteps hbs.1 heach.1 hown
      have hk : ∀ k v, own.acc.intoData k = some v → k ∈ stepsIds b ∧ k ≠ "each" := by
        intro k v hv
        have hmem := mem_of_data_branch hw hv
        exact ⟨hmem, fun he ↦ heach.1 (he ▸ hmem)⟩
      rw [branchIds]
      exact ((writesOnly_keep hk).mono (subset_append_left _ _)).trans
        ((ih hbs.2 heach.2 h).mono (subset_append_right _ _))

theorem writes_step (s : CompiledStep) : Writes blocks env s := by
  induction s using CompiledStep.induct with
  | h plan p ih =>
    intro mode st st' heach h
    rw [stepIds, mem_cons, not_or] at heach
    rw [step] at h
    obtain ⟨st₁, hp, h⟩ := Fallible.bind_eq_ok.mp h
    have hblock := writesOnly_block (Ne.symm heach.1) h
    rw [stepIds]
    refine WritesOnly.trans (b := st₁.acc) ?_
      (hblock.mono (cons_subset_cons _ (nil_subset _)))
    cases p with
    | none =>
      cases hp
      exact .refl _ _
    | some bs =>
      exact (writesOnly_branches (ih bs rfl) heach.2 hp).mono (subset_cons_self _ _)

/-! ## The executor and the reference -/

def Fresh (ids : List String) (acc : Accumulator) : Prop := ∀ k ∈ ids, acc.get k = none

theorem Fresh.mono {ids' : List String} (h : Fresh ids' acc) (hsub : ids ⊆ ids') : Fresh ids acc
    := fun k hk ↦ h k (hsub hk)

theorem Fresh.writesOnly {ids' : List String} {acc' : Accumulator} (h : Fresh ids' acc)
    (hw : WritesOnly ids acc acc') (hdisj : ids.Disjoint ids') (heach : "each" ∉ ids') :
    Fresh ids' acc' := by
  intro k hk
  have hne : k ≠ "each" := by
    rintro rfl
    exact heach hk
  have hkept := hw.others k (fun hmem ↦ hdisj hmem hk) hne
  rw [Accumulator.get_eq, hkept, hw.parents, ← Accumulator.get_eq]
  exact h k hk

theorem mergeDelta_eq_keep {parent : Accumulator} (acc : Accumulator) {delta : Lookup}
    (h : ∀ k v, delta k = some v → parent.get k = none) :
    mergeDelta parent acc delta = keep acc delta := by
  unfold mergeDelta keep
  congr 1
  funext k
  cases hk : delta k with
  | none => rfl
  | some v => simp [Option.filter, h k v hk]

theorem join_eq_branches {bs : List (List CompiledStep)}
    (hkeys : ∀ b ∈ bs, ∀ own, branchSteps blocks env b (branchState st) = .ok own → ∀ k v,
      own.acc.intoData k = some v → st.acc.get k = none)
    (acc : Accumulator) :
    branches blocks env bs st acc =
      match firstFailure (bs.map fun b ↦ branchSteps blocks env b (branchState st)) with
      | some stop => .error (stop, st)
      | none => .ok { st with
          acc := (bs.map fun b ↦ branchSteps blocks env b (branchState st)).foldl
            (mergeOutcome st.acc) acc } := by
  induction bs generalizing acc with
  | nil => rfl
  | cons b bs ih =>
    rw [forall_mem_cons] at hkeys
    rw [branches, map_cons]
    cases hb : branchSteps blocks env b (branchState st) with
    | error e => rfl
    | ok own =>
      rw [firstFailure, foldl_cons, mergeOutcome, mergeDelta_eq_keep acc (hkeys.1 own hb)]
      exact ih hkeys.2 _

def Refines (blocks : Call → Reply) (env : StepEnv) (s : CompiledStep) : Prop :=
  ∀ mode st k, (stepIds s).Nodup → "each" ∉ stepIds s → Fresh (parallelIds s.parallel) st.acc →
    value (calm blocks) (runStep env s mode st k) =
      (step blocks env s mode st).bind fun st ↦ value (calm blocks) (k st)

theorem value_runBranchSteps {ss : List CompiledStep} (hss : ∀ s ∈ ss, Refines blocks env s)
    (hnodup : (stepsIds ss).Nodup) (heach : "each" ∉ stepsIds ss)
    (hfresh : Fresh (stepsIds ss) st.acc) (k : ExecState → Run) :
    value (calm blocks) (runBranchSteps env ss st k) =
      (branchSteps blocks env ss st).bind fun st ↦ value (calm blocks) (k st) := by
  induction ss generalizing st with
  | nil => rfl
  | cons s ss ih =>
    rw [forall_mem_cons] at hss
    rw [stepsIds, List.nodup_append'] at hnodup
    rw [stepsIds, mem_append, not_or] at heach
    rw [runBranchSteps, branchSteps]
    split
    · rfl
    · have hids : parallelIds s.parallel ⊆ stepIds s := by
        cases s
        exact subset_cons_self _ _
      have hfreshs : Fresh (parallelIds s.parallel) st.acc :=
        hfresh.mono (List.Subset.trans hids (subset_append_left _ _))
      rw [hss.1 _ _ _ hnodup.1 heach.1 hfreshs]
      cases hs : step blocks env s .collect st with
      | error e => rfl
      | ok st₁ =>
        -- what the step wrote is disjoint from the ids of the steps after it
        have hw := writes_step s .collect st st₁ heach.1 hs
        have hfresh₁ : Fresh (stepsIds ss) st₁.acc :=
          (hfresh.mono (subset_append_right _ _)).writesOnly hw hnodup.2.2 heach.2
        exact ih hss.2 hnodup.2.1 heach.2 hfresh₁

theorem nodup_of_mem_branchIds {bs : List (List CompiledStep)} (h : (branchIds bs).Nodup)
    {b : List CompiledStep} (hb : b ∈ bs) :
    (stepsIds b).Nodup ∧ stepsIds b ⊆ branchIds bs := by
  induction bs with
  | nil => exact absurd hb not_mem_nil
  | cons c bs ih =>
    rw [branchIds, List.nodup_append'] at h
    rw [branchIds]
    rcases mem_cons.mp hb with rfl | hb
    · exact ⟨h.1, subset_append_left _ _⟩
    · obtain ⟨hn, hsub⟩ := ih h.2.1 hb
      exact ⟨hn, List.Subset.trans hsub (subset_append_right _ _)⟩

theorem fresh_of_branch_write {b : List CompiledStep} {own : ExecState}
    (heach : "each" ∉ stepsIds b) (hfresh : Fresh (stepsIds b) st.acc)
    (h : branchSteps blocks env b (branchState st) = .ok own) {k : String} {v : Json}
    (hv : own.acc.intoData k = some v) : st.acc.get k = none :=
  hfresh k (mem_of_data_branch (writesOnly_branchSteps (fun s _ ↦ writes_step s) heach h) hv)

theorem value_runParallel {p : Option (List (List CompiledStep))}
    (hp : ∀ bs, p = some bs → ∀ b ∈ bs, ∀ s ∈ b, Refines blocks env s)
    (hnodup : (parallelIds p).Nodup) (heach : "each" ∉ parallelIds p)
    (hfresh : Fresh (parallelIds p) st.acc) (k : ExecState → Run) :
    value (calm blocks) (runParallel env p st k) =
      (parallel blocks env p st).bind fun st ↦ value (calm blocks) (k st) := by
  cases p with
  | none => rfl
  | some bs =>
    rw [parallelIds] at hnodup heach hfresh
    have hvalues : (branchRuns env bs st).map (value (calm blocks)) =
        bs.map fun b ↦ branchSteps blocks env b (branchState st) := by
      rw [branchRuns_eq_map, map_map]
      refine map_congr_left fun b hb ↦ ?_
      obtain ⟨hn, hsub⟩ := nodup_of_mem_branchIds hnodup hb
      have hfreshb : Fresh (stepsIds b) (branchState st).acc := hfresh.mono hsub
      rw [Function.comp_apply,
        value_runBranchSteps (hp bs rfl b hb) hn (fun h ↦ heach (hsub h)) hfreshb]
      cases branchSteps blocks env b (branchState st) <;> rfl
    rw [runParallel, value_fork, hvalues, parallel, joinBranches, join_eq_branches]
    · rw [mergeBranches]
      cases firstFailure (bs.map fun b ↦ branchSteps blocks env b (branchState st)) <;> rfl
    · intro b hb own hown kk v hv
      obtain ⟨-, hsub⟩ := nodup_of_mem_branchIds hnodup hb
      exact fresh_of_branch_write (fun h ↦ heach (hsub h)) (hfresh.mono hsub) hown hv

theorem value_runStep (s : CompiledStep) : Refines blocks env s := by
  induction s using CompiledStep.induct with
  | h plan p ih =>
    intro mode st k hnodup heach hfresh
    rw [stepIds, nodup_cons] at hnodup
    rw [stepIds, mem_cons, not_or] at heach
    rw [runStep, value_checkBudget, value_checkCancelDeadline, step,
      value_runParallel ih hnodup.2 heach.2 hfresh]
    cases parallel blocks env p st with
    | error e => rfl
    | ok st₁ => exact value_runBlock plan mode st₁ k

end Sequential

end WaferRun
