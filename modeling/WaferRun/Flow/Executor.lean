import WaferRun.Block.OpenResponse
import WaferRun.Flow.Plan
import WaferRun.Flow.ResponseMeta
import WaferRun.Lib.Strands

/-!
# The executor: one step of a flow

A step charges the budget, checks the deadline, runs its parallel branches, and then runs its block
once, or once for each item of an array. The executor is written as a strand: the three things it
asks of its surroundings are effects, and everything between two of them is computed here.

* `charge` takes one unit of the step budget that the whole chain of flows shares;
* `check` asks whether the chain was cancelled or its deadline has passed;
* `invoke` runs a block.

Branches start from a snapshot. When all of them have ended, the first failure in the order of
declaration is the failure of the step. Without a failure the entries the branches wrote are merged
into the accumulator, except those whose id it already held.
-/

namespace WaferRun

open Strand

/-! ## Effects -/

structure Call where
  flowId : String
  target : String
  config : List (String × String)
  msg : Message
  body : Bytes

/-- What a block answers: it could not be initialised, or an output. -/
abbrev Reply := Except WaferError OutputStream

/-- What the executor asks of its surroundings. -/
inductive Effect
  | charge
  | check
  | invoke (call : Call)

/-- Whether the chain may go on. -/
inductive CancelCheck
  | ok
  | cancelled
  | timedOut
deriving DecidableEq, Repr

abbrev Answer : Effect → Type
  | .charge => Bool
  | .check => CancelCheck
  | .invoke _ => Reply

/-! ## The state of a strand of the flow -/

structure ExecState where
  acc : Accumulator
  body : Bytes
  msg : Message
  responderRecord : ResponderRecord

/-- A terminal that ends the flow where it is. -/
inductive ShortCircuit
  | error (err : WaferError)
  | halt (response : BufferedResponse)
  | drop (entries : List MetaEntry)
  | stream (output : OutputStream) (step : String)

abbrev StepResult := Except (ShortCircuit × ExecState) ExecState

abbrev Run := Strand Effect Answer StepResult

structure StepEnv where
  flow : CompiledFlow
  host : Host
  /-- The smallest `maxSteps` of the flows the chain has entered. -/
  maxSteps : ℕ

inductive InvocationOutcome
  | responded
  | noOutput
deriving DecidableEq, Repr

/-- Whether the output of a step is collected, or may be the streamed response of the flow. -/
inductive ResponseMode
  | collect
  | forwardStream
deriving DecidableEq, Repr

def fail (st : ExecState) (stop : ShortCircuit) : Run := .done (.error (stop, st))

def failWith (st : ExecState) (code : ErrorCode) (message : String) : Run :=
  fail st (.error (.new code message))

def budgetError (env : StepEnv) : WaferError :=
  .new .resourceExhausted
    ("max steps (" ++ toString env.maxSteps ++ ") exceeded in flow '" ++ env.flow.id ++ "'")

def checkBudget (env : StepEnv) (st : ExecState) (k : Run) : Run :=
  .perform .charge fun charged ↦ if charged then k else fail st (.error (budgetError env))

def checkCancelDeadline (env : StepEnv) (st : ExecState) (k : Run) : Run :=
  .perform .check fun
    | .ok => k
    | .cancelled => failWith st .cancelled "flow cancelled"
    | .timedOut => failWith st .deadlineExceeded ("flow '" ++ env.flow.id ++ "' timed out")

/-! ## One invocation -/

/-- The output of a block, as far as the executor has read it. -/
inductive StepOutput
  | collected (result : Except TerminalNotResponse BufferedResponse)
  | streaming (entries : List MetaEntry) (output : OutputStream)

def openTerminalOutput (output : OutputStream) : StepOutput :=
  let (entries, output) := output.takeLeadingMeta
  let (first, output) := output.peek
  if declaresStreaming entries && first.any StreamEvent.isChunk then .streaming entries output
  else .collected (collectBuffered (output.prepend (entries.map .metadata)))

def readOutput : ResponseMode → OutputStream → StepOutput
  | .collect, output => .collected (collectBuffered output)
  | .forwardStream, output => openTerminalOutput output

def firstUnsendable (entries : List MetaEntry) : Option InvalidResponseMeta :=
  entries.findSome? fun e ↦
    match classifyResponseMeta e with
    | .error invalid => if invalid.kind = .unsendable then some invalid else none
    | .ok _ => none

def stepLabel (step : StepPlan) : String :=
  "block '" ++ step.blockLabel ++ "' in step '" ++ step.id ++ "'"

def InvalidResponseMeta.display (host : Host) (invalid : InvalidResponseMeta) : String :=
  "response meta " ++ host.debug invalid.key ++ " refused: " ++ invalid.reason

def unsendableMetaError (env : StepEnv) (step : StepPlan) (invalid : InvalidResponseMeta) :
    ShortCircuit :=
  .error (.new .internal
    (stepLabel step ++ " produced unsendable response meta: " ++ invalid.display env.host))

def layOver (st : ExecState) (entries : List MetaEntry) : ExecState :=
  let s := applyResponse ⟨st.responderRecord, st.msg.entries⟩ entries
  { st with responderRecord := s.record, msg := { st.msg with entries := s.msg } }

def forwardStream (env : StepEnv) (step : StepPlan) (st : ExecState) (entries : List MetaEntry)
    (output : OutputStream) : ShortCircuit × ExecState :=
  match firstUnsendable entries with
  | some invalid => (unsendableMetaError env step invalid, st)
  | none => (.stream output (stepLabel step), layOver st entries)

def producedEntries (st : ExecState) : Except TerminalNotResponse BufferedResponse → List MetaEntry
  | .ok response => response.entries
  | .error (.error err) => err.entries
  | .error (.drop entries) => entries
  | .error (.halt response) => response.entries
  | .error (.continue next) => next.entries.filter fun e ↦ e ∉ st.msg.entries
  | .error .malformed => []

def applyCollected (env : StepEnv) (step : StepPlan) (st : ExecState)
    (buf : Except TerminalNotResponse BufferedResponse) :
    Except (ShortCircuit × ExecState) (ExecState × InvocationOutcome) :=
  match firstUnsendable (producedEntries st buf) with
  | some invalid => .error (unsendableMetaError env step invalid, st)
  | none =>
    match buf with
    | .ok response => .ok (layOver { st with body := response.body } response.entries, .responded)
    | .error (.error err) =>
      match env.flow.onError with
      | .stop => .error (.error err, st)
      | .continue => .ok ({ st with body := [] }, .noOutput)
    | .error (.drop entries) => .error (.drop entries, st)
    | .error (.halt response) => .error (.halt response, st)
    | .error (.continue next) =>
      .ok ({ st with
        responderRecord := afterContinue st.responderRecord st.msg.entries next.entries
        msg := next }, .noOutput)
    | .error .malformed =>
      .error (.error (.new .internal (stepLabel step ++ " produced malformed output stream")), st)

def applyReply (env : StepEnv) (step : StepPlan) (mode : ResponseMode) (st : ExecState)
    (reply : Reply) : Except (ShortCircuit × ExecState) (ExecState × InvocationOutcome) :=
  match reply with
  | .error initFailure => .error (.error initFailure, st)
  | .ok output =>
    match readOutput mode output with
    | .collected buf => applyCollected env step st buf
    | .streaming entries output => .error (forwardStream env step st entries output)

def resolveInput (env : StepEnv) (step : StepPlan) (st : ExecState) : Except WaferError ExecState :=
  match step.input with
  | none => .ok st
  | some template =>
    match template st.acc.get with
    | .error e =>
      .error (.new .invalidArgument ("input resolution failed in step '" ++ step.id ++ "': " ++ e))
    | .ok val =>
      match env.host.toVec val with
      | .ok data => .ok { st with body := data }
      | .error e =>
        .error (.new .internal
          ("failed to serialize input for step '" ++ step.id ++ "': " ++ e))

def runInvocation (env : StepEnv) (step : StepPlan) (mode : ResponseMode) (st : ExecState)
    (k : ExecState → InvocationOutcome → Run) : Run :=
  checkCancelDeadline env st <|
    match resolveInput env step st with
    | .error err => fail st (.error err)
    | .ok st =>
      match step.target with
      | none => failWith st .unimplemented (stepLabel step ++ " is not registered")
      | some target =>
        .perform (.invoke ⟨env.flow.id, target, step.config, st.msg, st.body⟩) fun reply ↦
          match applyReply env step mode st reply with
          | .error stop => .done (.error stop)
          | .ok (st, outcome) => k st outcome

def outputValue (env : StepEnv) (st : ExecState) : InvocationOutcome → Json
  | .responded => (env.host.fromSlice st.body).getD .null
  | .noOutput => .null

/-! ## Fan-out -/

/-- The value `$.each` has during one iteration. -/
def eachBinding (item : Json) (index : ℕ) : Json :=
  .object [("item", item), ("index", .number (.posInt index))]

/-- Without an input template the item is the input of the block. -/
def itemBody (env : StepEnv) (step : StepPlan) (index : ℕ) (item : Json) (st : ExecState) :
    Except WaferError ExecState :=
  if step.input.isSome then .ok st
  else
    match env.host.toVec item with
    | .ok bytes => .ok { st with body := bytes }
    | .error e =>
      .error (.new .internal ("failed to serialize each item " ++ toString index ++
        " for step '" ++ step.id ++ "': " ++ e))

def runItems (env : StepEnv) (step : StepPlan) (k : ExecState → List Json → Run) :
    ℕ → List Json → List Json → ExecState → Run
  | _, [], results, st => k st results
  | index, item :: items, results, st =>
    checkBudget env st <| checkCancelDeadline env st <|
      match itemBody env step index item st with
      | .error err => fail st (.error err)
      | .ok st =>
        runInvocation env step .collect { st with acc := st.acc.set "each" (eachBinding item index) }
          fun st outcome ↦
            runItems env step k (index + 1) items (results ++ [outputValue env st outcome]) st

def runEach (env : StepEnv) (step : StepPlan) (each : CompiledEach) (st : ExecState)
    (k : ExecState → Run) : Run :=
  match each.path st.acc.get with
  | .ok (.array items) =>
    runItems env step (fun st results ↦
      let st := { st with acc := st.acc.remove "each" }
      match env.host.toVec (.array results) with
      | .ok bytes => k { st with body := bytes, acc := st.acc.set step.id (.array results) }
      | .error e =>
        failWith st .internal ("failed to serialize results of step '" ++ step.id ++ "': " ++ e))
      0 items [] st
  | .ok other =>
    failWith st .invalidArgument ("each expression '" ++ each.raw ++ "' in step '" ++ step.id ++
      "' must resolve to an array, got " ++ env.host.display other)
  | .error e =>
    failWith st .invalidArgument ("each expression '" ++ each.raw ++ "' in step '" ++ step.id ++
      "' failed to resolve: " ++ e)

def runBlock (env : StepEnv) (step : StepPlan) (mode : ResponseMode) (st : ExecState)
    (k : ExecState → Run) : Run :=
  match step.each with
  | some each => runEach env step each st k
  | none =>
    runInvocation env step mode st fun st outcome ↦
      if step.input.isSome then
        k { st with acc := st.acc.set step.id (outputValue env st outcome) }
      else k st

/-! ## Branches -/

def firstFailure : List StepResult → Option ShortCircuit
  | [] => none
  | .error (stop, _) :: _ => some stop
  | .ok _ :: rs => firstFailure rs

def mergeDelta (parent : Accumulator) (acc : Accumulator) (delta : Lookup) : Accumulator :=
  { acc with data := fun k ↦
      ((delta k).filter fun _ ↦ (parent.get k).isNone).or (acc.data k) }

def mergeOutcome (parent acc : Accumulator) : StepResult → Accumulator
  | .ok st => mergeDelta parent acc st.acc.intoData
  | .error _ => acc

def mergeBranches (parent : Accumulator) (outcomes : List StepResult) : Accumulator :=
  outcomes.foldl (mergeOutcome parent) parent

def branchState (st : ExecState) : ExecState := { st with acc := st.acc.branchFrom }

def joinBranches (st : ExecState) (k : ExecState → Run) (outcomes : List StepResult) : Run :=
  match firstFailure outcomes with
  | some stop => fail st stop
  | none => k { st with acc := mergeBranches st.acc outcomes }

def nextInBranchError (step : StepPlan) : WaferError :=
  .new .invalidArgument ("step '" ++ step.id ++
    "': 'next' routing inside parallel branches is not supported — branch steps run strictly in order")

mutual

def runStep (env : StepEnv) :
    CompiledStep → ResponseMode → ExecState → (ExecState → Run) → Run
  | .mk step parallel, mode, st, k =>
    checkBudget env st <| checkCancelDeadline env st <|
      runParallel env parallel st fun st ↦ runBlock env step mode st k
termination_by structural s => s

def runParallel (env : StepEnv) :
    Option (List (List CompiledStep)) → ExecState → (ExecState → Run) → Run
  | none, st, k => k st
  | some branches, st, k => .fork (branchRuns env branches st) (joinBranches st k)
termination_by structural p => p

def branchRuns (env : StepEnv) : List (List CompiledStep) → ExecState → List Run
  | [], _ => []
  | b :: bs, st =>
    runBranchSteps env b (branchState st) (fun st ↦ .done (.ok st)) :: branchRuns env bs st
termination_by structural bs => bs

def runBranchSteps (env : StepEnv) : List CompiledStep → ExecState → (ExecState → Run) → Run
  | [], st, k => k st
  | s :: ss, st, k =>
    if s.plan.next.isSome then fail st (.error (nextInBranchError s.plan))
    else runStep env s .collect st fun st ↦ runBranchSteps env ss st k
termination_by structural ss => ss

end

theorem branchRuns_eq_map (env : StepEnv) (branches : List (List CompiledStep)) (st : ExecState) :
    branchRuns env branches st =
      branches.map fun b ↦ runBranchSteps env b (branchState st) fun st ↦ .done (.ok st) := by
  induction branches with
  | nil => rfl
  | cons b bs ih => rw [branchRuns, ih, List.map_cons]

/-! ## Proving a property of every strand of the executor

The strands of the executor are put together from a few pieces. A property that the pieces preserve
holds of the strand of every step (`Preserved.runStep`). The property may depend on a number of
credits: a charge earns one, an invocation uses one. -/

/-- What the pieces of the executor preserve. The condition `checked` is for properties that rely on
validation: under it no step of a branch routes. -/
structure Preserved (env : StepEnv) (checked : Prop) (P : ℕ → Run → Prop) : Prop where
  weaken : ∀ {n x}, P n x → P (n + 1) x
  done : ∀ {n} r, P n (.done r)
  budget : ∀ {n k} st, P (n + 1) k → P n (checkBudget env st k)
  check : ∀ {n k} st, P n k → P n (checkCancelDeadline env st k)
  invoke : ∀ {n} call k, (∀ reply, P n (k reply)) → P (n + 1) (.perform (.invoke call) k)
  fork : ∀ {n} bs st k, (checked → noNextInBranchList bs = true) →
    (∀ b ∈ bs, P 0 (runBranchSteps env b (branchState st) fun st ↦ .done (.ok st))) →
    (∀ st, P n (k st)) → P n (.fork (branchRuns env bs st) (joinBranches st k))

namespace Preserved

variable {env : StepEnv} {checked : Prop} {P : ℕ → Run → Prop} {n : ℕ}

theorem runInvocation (h : Preserved env checked P) {step : StepPlan} {mode : ResponseMode}
    {st : ExecState} {k : ExecState → InvocationOutcome → Run} (hk : ∀ st o, P n (k st o)) :
    P (n + 1) (runInvocation env step mode st k) := by
  refine h.check st ?_
  split
  · exact h.done _
  · split
    · exact h.done _
    · refine h.invoke _ _ fun reply ↦ ?_
      split
      · exact h.done _
      · exact hk _ _

theorem runItems (h : Preserved env checked P) {step : StepPlan}
    {k : ExecState → List Json → Run} (hk : ∀ st results, P n (k st results)) (items : List Json) :
    ∀ index results st, P n (runItems env step k index items results st) := by
  induction items with
  | nil => exact fun _ _ _ ↦ hk _ _
  | cons item items ih =>
    intro index results st
    refine h.budget st (h.check st ?_)
    split
    · exact h.done _
    · exact h.runInvocation fun _ _ ↦ ih _ _ _

theorem runEach (h : Preserved env checked P) {step : StepPlan} {each : CompiledEach}
    {st : ExecState} {k : ExecState → Run} (hk : ∀ st, P n (k st)) :
    P n (runEach env step each st k) := by
  unfold WaferRun.runEach
  split
  · refine h.runItems (fun st results ↦ ?_) _ _ _ _
    dsimp only
    split
    · exact hk _
    · exact h.done _
  · exact h.done _
  · exact h.done _

theorem runBlock (h : Preserved env checked P) {step : StepPlan} {mode : ResponseMode}
    {st : ExecState} {k : ExecState → Run} (hk : ∀ st, P n (k st)) :
    P (n + 1) (runBlock env step mode st k) := by
  unfold WaferRun.runBlock
  split
  · exact h.weaken (h.runEach hk)
  · refine h.runInvocation fun st o ↦ ?_
    split <;> exact hk _

theorem runBranchSteps (h : Preserved env checked P) {ss : List CompiledStep}
    (hss : ∀ s ∈ ss, ∀ {n} mode st k, (∀ st, P n (k st)) → P n (runStep env s mode st k))
    {st : ExecState} {k : ExecState → Run} (hk : ∀ st, P n (k st)) :
    P n (runBranchSteps env ss st k) := by
  induction ss generalizing st with
  | nil => exact hk st
  | cons s ss ih =>
    rw [List.forall_mem_cons] at hss
    rw [WaferRun.runBranchSteps]
    split
    · exact h.done _
    · exact hss.1 _ _ _ fun st ↦ ih hss.2

theorem noNext_of_mem {bs : List (List CompiledStep)} (h : noNextInBranchList bs = true)
    {b : List CompiledStep} (hb : b ∈ bs) : noNextInBranch b = true := by
  induction bs with
  | nil => exact absurd hb List.not_mem_nil
  | cons c bs ih =>
    rw [noNextInBranchList, Bool.and_eq_true] at h
    rcases List.mem_cons.mp hb with rfl | hb
    · exact h.1
    · exact ih h.2 hb

theorem noNextInBranches_of_mem {ss : List CompiledStep} (h : noNextInBranch ss = true)
    {s : CompiledStep} (hs : s ∈ ss) : noNextInBranches s = true := by
  induction ss with
  | nil => exact absurd hs List.not_mem_nil
  | cons c ss ih =>
    rw [noNextInBranch, Bool.and_eq_true, Bool.and_eq_true] at h
    rcases List.mem_cons.mp hs with rfl | hs
    · exact h.1.2
    · exact ih h.2 hs

theorem runStep (h : Preserved env checked P) (s : CompiledStep)
    (hs : checked → noNextInBranches s = true) :
    ∀ {n} mode st k, (∀ st, P n (k st)) → P n (runStep env s mode st k) := by
  induction s using CompiledStep.induct with
  | h plan p ih =>
    intro n mode st k hk
    rw [WaferRun.runStep]
    refine h.budget st (h.check st ?_)
    cases p with
    | none => exact h.runBlock hk
    | some bs =>
      refine h.fork bs st _ hs (fun b hb ↦ ?_) fun st ↦ h.runBlock hk
      refine h.runBranchSteps (fun s hmem ↦ ?_) fun st ↦ h.done _
      exact ih bs rfl b hb s hmem fun hc ↦ noNextInBranches_of_mem (noNext_of_mem (hs hc) hb) hmem

theorem runParallel (h : Preserved env checked P) {bs : List (List CompiledStep)}
    (hbs : checked → noNextInBranchList bs = true) {st : ExecState} {k : ExecState → Run}
    (hk : ∀ st, P n (k st)) : P n (runParallel env (some bs) st k) := by
  refine h.fork bs st k hbs (fun b hb ↦ ?_) hk
  refine h.runBranchSteps (fun s hs ↦ h.runStep s fun hc ↦ ?_) fun st ↦ h.done _
  exact noNextInBranches_of_mem (noNext_of_mem (hbs hc) hb) hs

end Preserved

end WaferRun
