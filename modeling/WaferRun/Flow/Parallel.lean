import WaferRun.Flow.Sequential

/-!
# Parallel branches

The branches of a step run concurrently: their effects interleave in any order. With blocks whose
reply only depends on the call, and as long as neither the budget nor the deadline stops the chain,
the interleaving does not matter (`runParallel_lossless`): the step ends as if its branches had run
one after another, its accumulator holds what it held before and every entry a branch wrote, and
the rest of its state is what it was.

The merge of the executor drops an entry whose id the accumulator held at the fork. Validation makes
ids unique, so on the first visit of a step no branch writes such an id. A step that a routing entry
returns to is a different matter: its branches write the same ids again, and the accumulator keeps
the values of the first visit.
-/

namespace WaferRun

open Strand

/-- The answers of a chain whose blocks always behave in the same way; the choice is the time. -/
def TransferChain.answerWith (blocks : Call → Reply) : Handler Effect Answer TransferChain ℕ :=
  fun chain e now ↦ chain.answer e ⟨now, blocks⟩

/-- No charge was refused, and neither a deadline nor a cancellation was seen. -/
structure TransferChain.Calm (chain : TransferChain) : Prop where
  notCancelled : chain.cancelled = false
  withinBudget : chain.stepsUsed ≤ chain.maxSteps

theorem TransferChain.Calm.of_answer {blocks : Call → Reply} {chain chain' : TransferChain}
    {e : Effect} {now : ℕ} {a : Answer e} (h : answerWith blocks chain e now = some (a, chain'))
    (hcalm : chain'.Calm) : chain.Calm ∧ a = calm blocks e := by
  obtain ⟨hc, hb⟩ := hcalm
  cases e with
  | charge =>
    cases h
    have hlt : chain.stepsUsed < chain.maxSteps := hb
    exact ⟨⟨hc, hlt.le⟩, decide_eq_true (chain.counter_le.trans_lt hlt)⟩
  | check =>
    simp only [answerWith, answer, check, Option.some.injEq] at h
    split at h
    · rename_i hcan
      cases h
      rw [hcan] at hc
      cases hc
    · split at h
      · cases h
        cases hc
      · cases h
        exact ⟨⟨hc, hb⟩, rfl⟩
  | invoke call =>
    cases h
    exact ⟨⟨hc, hb⟩, rfl⟩

theorem TransferChain.exists_answerWith (blocks : Call → Reply) (chain : TransferChain)
    (e : Effect) : ∃ now a chain', answerWith blocks chain e now = some (a, chain') := by
  cases e with
  | charge => exact ⟨0, _, _, rfl⟩
  | check => exact ⟨0, _, _, rfl⟩
  | invoke call => exact ⟨0, _, _, rfl⟩

theorem eq_value_of_calm {blocks : Call → Reply} {chain chain' : TransferChain} {x : Run}
    {r : StepResult} (h : Steps (TransferChain.answerWith blocks) chain x chain' (.done r))
    (hcalm : chain'.Calm) : r = value (calm blocks) x := by
  let pure' : Handler Effect Answer Unit Unit := fun _ e _ ↦ some (calm blocks e, ())
  have hsteps : Steps pure' () x () (.done r) :=
    h.map (f := fun _ ↦ ()) (fun _ _ _ _ _ ha hg ↦ (hg.of_answer ha).1)
      (fun _ e _ a _ ha hg ↦ ⟨(), by rw [(hg.of_answer ha).2]⟩) hcalm
  have hvalue : value (calm blocks) (.done r : Run) = value (calm blocks) x := by
    refine hsteps.value_eq ?_
    rintro _ e _ a _ ha
    cases ha
    rfl
  exact hvalue

/-! ## What the branches leave -/

namespace Sequential

variable {blocks : Call → Reply} {env : StepEnv}

theorem branches_eq_ok {bs : List (List CompiledStep)} {st st' : ExecState} {acc : Accumulator}
    (h : branches blocks env bs st acc = .ok st') :
    ∃ owns, List.Forall₂ (fun b own ↦ branchSteps blocks env b (branchState st) = .ok own) bs owns ∧
      st' = { st with acc := (owns.map fun own ↦ own.acc.intoData).foldl keep acc } := by
  induction bs generalizing acc with
  | nil =>
    cases h
    exact ⟨[], .nil, rfl⟩
  | cons b bs ih =>
    rw [branches] at h
    split at h
    · cases h
    · rename_i own hown
      obtain ⟨owns, howns, rfl⟩ := ih h
      exact ⟨own :: owns, .cons hown howns, rfl⟩

theorem branches_error {bs : List (List CompiledStep)} {st st' : ExecState} {acc : Accumulator}
    {stop : ShortCircuit} (h : branches blocks env bs st acc = .error (stop, st')) : st' = st := by
  induction bs generalizing acc with
  | nil => cases h
  | cons b bs ih =>
    rw [branches] at h
    split at h
    · cases h
      rfl
    · exact ih h

theorem foldl_keep (ds : List Lookup) (acc : Accumulator) :
    ds.foldl keep acc =
      { acc with data := fun k ↦ (ds.reverse.findSome? fun d ↦ d k).or (acc.data k) } := by
  induction ds generalizing acc with
  | nil => rfl
  | cons d ds ih =>
    rw [List.foldl_cons, ih, keep]
    congr 1
    funext k
    rw [List.reverse_cons, List.findSome?_append, Option.or_assoc]
    cases hd : d k <;> simp [hd]

theorem write_unique {bs : List (List CompiledStep)} {st : ExecState} {owns : List ExecState}
    (h : List.Forall₂ (fun b own ↦ branchSteps blocks env b (branchState st) = .ok own) bs owns)
    (hnodup : (branchIds bs).Nodup) (heach : "each" ∉ branchIds bs) :
    (∀ own ∈ owns, ∀ k v, own.acc.intoData k = some v → k ∈ branchIds bs) ∧
      ∀ own ∈ owns, ∀ own' ∈ owns, ∀ k v v',
        own.acc.intoData k = some v → own'.acc.intoData k = some v' → v = v' := by
  induction h with
  | nil => simp
  | @cons b own bs owns hb _ ih =>
    rw [branchIds, List.nodup_append'] at hnodup
    rw [branchIds, List.mem_append, not_or] at heach
    obtain ⟨hmem, huniq⟩ := ih hnodup.2.1 heach.2
    have hown : ∀ k v, own.acc.intoData k = some v → k ∈ stepsIds b := fun k v hv ↦
      mem_of_data_branch (writesOnly_branchSteps (fun s _ ↦ writes_step s) heach.1 hb) hv
    constructor
    · rw [branchIds, List.forall_mem_cons]
      exact ⟨fun k v hv ↦ List.mem_append_left _ (hown k v hv),
        fun o ho k v hv ↦ List.mem_append_right _ (hmem o ho k v hv)⟩
    · intro o ho o' ho' k v v' hv hv'
      rcases List.mem_cons.mp ho with rfl | hin <;> rcases List.mem_cons.mp ho' with rfl | hin'
      · rw [hv] at hv'
        exact Option.some.inj hv'
      · exact absurd (hmem o' hin' k v' hv') (hnodup.2.2 (hown k v hv))
      · exact absurd (hmem o hin k v hv) (hnodup.2.2 (hown k v' hv'))
      · exact huniq o hin o' hin' k v v' hv hv'

end Sequential

/-- What a lossless join leaves: the state before the fork, with an accumulator that holds what it
held before and what the branches wrote. -/
structure Joined (st : ExecState) (owns : List ExecState) (st' : ExecState) : Prop where
  body : st'.body = st.body
  msg : st'.msg = st.msg
  record : st'.responderRecord = st.responderRecord
  parent : ∀ k v, st.acc.get k = some v → st'.acc.get k = some v
  wrote : ∀ own ∈ owns, ∀ k v, own.acc.intoData k = some v → st'.acc.get k = some v
  only : ∀ k v, st'.acc.get k = some v →
    st.acc.get k = some v ∨ ∃ own ∈ owns, own.acc.intoData k = some v

/-- The reference joins without loss where the ids are fresh. -/
theorem Sequential.joined {blocks : Call → Reply} {env : StepEnv} {bs : List (List CompiledStep)}
    {st st' : ExecState} (hnodup : (branchIds bs).Nodup) (heach : "each" ∉ branchIds bs)
    (hfresh : Fresh (branchIds bs) st.acc)
    (h : parallel blocks env (some bs) st = .ok st') :
    ∃ owns, List.Forall₂ (fun b own ↦ branchSteps blocks env b (branchState st) = .ok own) bs owns ∧
      Joined st owns st' := by
  obtain ⟨owns, howns, rfl⟩ := branches_eq_ok h
  obtain ⟨hmem, huniq⟩ := write_unique howns hnodup heach
  have hget : ∀ k, Accumulator.get ((owns.map fun own ↦ own.acc.intoData).foldl keep st.acc) k =
      ((owns.map fun own ↦ own.acc.intoData).reverse.findSome? fun d ↦ d k).or (st.acc.get k) := by
    intro k
    rw [foldl_keep, Accumulator.get_eq, Accumulator.get_eq, Option.or_assoc]
  -- what is found among the writes was written by one of the branches
  have hfound : ∀ {k w}, ((owns.map fun own ↦ own.acc.intoData).reverse.findSome? fun d ↦ d k) =
      some w → ∃ own ∈ owns, own.acc.intoData k = some w := by
    intro k w hw
    obtain ⟨d, hd, hdk⟩ := List.exists_of_findSome?_eq_some hw
    obtain ⟨own, ho, rfl⟩ := List.mem_map.mp (List.mem_reverse.mp hd)
    exact ⟨own, ho, hdk⟩
  refine ⟨owns, howns, rfl, rfl, rfl, fun k v hv ↦ ?_, fun own ho k v hv ↦ ?_, fun k v hv ↦ ?_⟩
  · rw [hget]
    cases hw : (owns.map fun own ↦ own.acc.intoData).reverse.findSome? fun d ↦ d k with
    | none => rwa [Option.none_or]
    | some w =>
      obtain ⟨own, ho, hk⟩ := hfound hw
      rw [hfresh k (hmem own ho k w hk)] at hv
      cases hv
  · rw [hget]
    cases hw : (owns.map fun own ↦ own.acc.intoData).reverse.findSome? fun d ↦ d k with
    | none =>
      have hd := List.findSome?_eq_none_iff.mp hw own.acc.intoData
        (List.mem_reverse.mpr (List.mem_map_of_mem ho))
      rw [hv] at hd
      cases hd
    | some w =>
      obtain ⟨own', ho', hk⟩ := hfound hw
      rw [huniq own ho own' ho' k v w hv hk, Option.some_or]
  · rw [hget] at hv
    rcases Option.or_eq_some_iff.mp hv with hw | ⟨-, hv⟩
    · exact .inr (hfound hw)
    · exact .inl hv

def parallelRun (env : StepEnv) (bs : List (List CompiledStep)) (st : ExecState) : Run :=
  runParallel env (some bs) st fun st ↦ .done (.ok st)

/-- **The interleaving of parallel branches does not matter**, if none of their ids is in the
accumulator at the fork. Every interleaving ends. If no limit was hit on the way, the result is
that of running the branches one after another: a failure leaves the state before the fork, and a
success joins without loss what each branch wrote when it ran by itself. -/
theorem runParallel_lossless {steps : List CompiledStep} (hv : Validated steps) {plan : StepPlan}
    {bs : List (List CompiledStep)} (hmem : .mk plan (some bs) ∈ steps) (blocks : Call → Reply)
    (env : StepEnv) (st : ExecState) (hfresh : ∀ k ∈ branchIds bs, st.acc.get k = none)
    (chain : TransferChain) :
    Acc (Next (TransferChain.answerWith blocks)) (parallelRun env bs st) ∧
    ∀ as chain' y,
      Actions.run (move (TransferChain.answerWith blocks)) (chain, parallelRun env bs st) as =
        some (chain', y) →
      ((∃ r, y = .done r) ∨ ∃ a t, move (TransferChain.answerWith blocks) (chain', y) a = some t) ∧
      ∀ r, y = .done r → chain'.Calm →
        r = Sequential.parallel blocks env (some bs) st ∧
        (∀ stop st', r = .error (stop, st') → st' = st) ∧
        ∀ st', r = .ok st' →
          ∃ owns, List.Forall₂
            (fun b own ↦ Sequential.branchSteps blocks env b (branchState st) = .ok own) bs owns ∧
            Joined st owns st' := by
  obtain ⟨hnodup, heach⟩ := hv.branchIds hmem
  refine ⟨acc_next _ _, fun as chain' y hrun ↦ ⟨?_, fun r hy hcalm ↦ ?_⟩⟩
  · rcases exists_step (TransferChain.exists_answerWith blocks) chain' y with hdone | ⟨t, z, hz⟩
    · exact .inl hdone
    · obtain ⟨now, p, hp⟩ := hz.exists_stepAt
      exact .inr ⟨(p, now), (t, z), hp⟩
  · subst hy
    have hr : r = Sequential.parallel blocks env (some bs) st := by
      rw [eq_value_of_calm (steps_of_run hrun) hcalm, parallelRun,
        Sequential.value_runParallel (p := some bs) (fun _ _ _ _ s _ ↦ Sequential.value_runStep s)
          hnodup heach hfresh]
      cases Sequential.parallel blocks env (some bs) st <;> rfl
    refine ⟨hr, fun stop st' he ↦ ?_, fun st' hok ↦ ?_⟩
    · rw [hr] at he
      exact Sequential.branches_error he
    · rw [hr] at hok
      exact Sequential.joined hnodup heach hfresh hok

/-! ## A step that is visited twice

The flow counts in one of two branches and then routes back to the step while the count is one. The
block that counts answers with one to the first message and with two to the second. -/

namespace RetryFlow

def one : Json := .number (.posInt 1)
def two : Json := .number (.posInt 2)

/-- Enough of the JSON library for the bodies of this flow. -/
def host : Host where
  fromSlice
    | [49] => some one
    | [50] => some two
    | _ => none
  toVec _ := .ok [110, 117, 108, 108]
  display _ := "null"
  debug s := "\"" ++ s ++ "\""

def blocks (call : Call) : Reply :=
  if call.target = "org/count" then
    .ok (.ofEvents [.chunk (if call.msg.kind = "first" then [49] else [50]), .complete []])
  else if call.target = "org/retry" then .ok (.ofEvents [.continue ⟨"again", []⟩])
  else .ok (.ofEvents [.continue call.msg])

def plainStep (id target : String) : StepPlan where
  id := id
  blockLabel := target
  target := some target
  input := none
  config := []
  each := none
  next := none

def count : CompiledStep :=
  .mk { plainStep "count" "org/count" with input := some fun _ ↦ .ok .null } none

def branches : List (List CompiledStep) := [[count], [.mk (plainStep "log" "org/pass") none]]

def fan : CompiledStep := .mk (plainStep "fan" "org/pass") (some branches)

/-- The condition `$.count == 1`. -/
def countIsOne (get : Lookup) : Except String Bool :=
  match get "count" with
  | some (.number (.posInt n)) => .ok (n = 1)
  | some _ => .ok false
  | none => .error "unresolved reference: $.count"

def routing : List CompiledNextEntry :=
  [⟨some ("$.count == 1", countIsOne), .step 0⟩, ⟨none, .step 2⟩]

def retry : CompiledStep := .mk { plainStep "retry" "org/retry" with next := some routing } none

def flow : CompiledFlow where
  id := "retry"
  timeout := none
  maxSteps := 1000
  onError := .stop
  usesAccumulator := true
  steps := [fan, retry, .mk (plainStep "end" "org/pass") none]

theorem validated : Validated flow.steps where
  nodup := by decide
  reserved := by decide
  noNext := by decide

def env : StepEnv := ⟨flow, host, 1000⟩

def start : ExecState := ⟨Accumulator.new.set "input" .null, [], ⟨"first", []⟩, fun _ ↦ none⟩

def chain : TransferChain := TransferChain.new.enter flow 0

def turns : List (List ℕ × ℕ) :=
  [[0], [1], [0], [1], [1], [0], [1], [0], []].map fun p ↦ (p, 0)

def visit : List (List ℕ × ℕ) := [([], 0), ([], 0)] ++ turns ++ [([], 0), ([], 0)]

end RetryFlow

open RetryFlow in
theorem runParallel_lossless_firstVisit :
    ∃ chain' st', Actions.run (move (TransferChain.answerWith blocks))
        (chain, parallelRun env branches start) turns = some (chain', .done (.ok st')) ∧
      chain'.Calm ∧ .ok st' = Sequential.parallel blocks env (some branches) start ∧
      st'.acc.get "count" = some one := by
  refine ⟨_, _, rfl, ⟨rfl, by decide⟩, ?_, rfl⟩
  have hfresh : ∀ k ∈ branchIds branches, start.acc.get k = none := by
    simp [branches, count, branchIds, stepsIds, stepIds, parallelIds, plainStep, start]
    decide
  exact (((runParallel_lossless validated (List.mem_cons_self) blocks env start hfresh chain).2
    turns _ _ rfl).2 _ rfl ⟨rfl, by decide⟩).1

open RetryFlow in
/-- **The second visit loses what the branch wrote.** The step `retry` routes back to `fan`, the
branch counts two, and the accumulator still says one. -/
theorem count_lost_on_secondVisit :
    Validated flow.steps ∧
    ∃ c₁ st₁ c₂ st₂ c₃ st₃ own,
      Actions.run (move (TransferChain.answerWith blocks))
        (chain, runStep env fan .collect start fun st ↦ .done (.ok st)) visit =
        some (c₁, .done (.ok st₁)) ∧
      Actions.run (move (TransferChain.answerWith blocks))
        (c₁, runStep env retry .collect st₁ fun st ↦ .done (.ok st))
        [([], 0), ([], 0), ([], 0), ([], 0)] = some (c₂, .done (.ok st₂)) ∧
      route flow retry.plan st₂ routing = .ok (some (.step 0)) ∧
      Actions.run (move (TransferChain.answerWith blocks))
        (c₂, parallelRun env branches st₂) turns = some (c₃, .done (.ok st₃)) ∧
      c₃.Calm ∧
      Sequential.branchSteps blocks env [count] (branchState st₂) = .ok own ∧
      own.acc.intoData "count" = some two ∧ st₃.acc.get "count" = some one := by
  refine ⟨validated, _, _, _, _, _, _, _, rfl, rfl, rfl, rfl, ⟨rfl, by decide⟩, rfl, rfl, rfl⟩

end WaferRun
