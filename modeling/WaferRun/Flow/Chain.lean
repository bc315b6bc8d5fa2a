import WaferRun.Flow.Executor

/-!
# Chains of flows

The flows a request passes through form one chain. The chain owns the step counter, the
cancellation flag and the deadline: they carry across every transfer, and a flow that is entered
can only tighten the limits.

`TransferChain.answer` is how the chain answers the effects of the executor. Everything it does not
decide itself is in the `Moment`: what the clock says, and what the blocks answer. `chainStep` is
the loop that runs one flow after another, as a machine: enter a flow, let a strand of the current
step move, or go on to the next step once the current one has ended.
-/

namespace WaferRun

open Strand

/-- The limits and counters the flows of one request share. -/
structure TransferChain where
  cancelled : Bool
  /-- The charges so far. The counter of the chain holds their number modulo `2 ^ 64`. -/
  stepsUsed : ℕ
  maxSteps : ℕ
  deadline : Option ℕ
deriving DecidableEq, Repr

structure Moment where
  now : ℕ
  blocks : Call → Reply

namespace TransferChain

def new : TransferChain := ⟨false, 0, 2 ^ 64 - 1, none⟩

def enter (chain : TransferChain) (flow : CompiledFlow) (now : ℕ) : TransferChain :=
  { chain with
    maxSteps := min chain.maxSteps flow.maxSteps
    deadline :=
      match flow.timeout with
      | none => chain.deadline
      | some timeout => some ((chain.deadline.map fun dl ↦ min dl (now + timeout)).getD (now + timeout)) }

/-- The step counter, an atomic integer of 64 bits. -/
def counter (chain : TransferChain) : ℕ := chain.stepsUsed % 2 ^ 64

/-- Charge one unit: it is granted while the counter is below the limit. The counter goes up in
either case, and wraps around. -/
def charge (chain : TransferChain) : Bool × TransferChain :=
  (chain.counter < chain.maxSteps, { chain with stepsUsed := chain.stepsUsed + 1 })

theorem counter_le (chain : TransferChain) : chain.counter ≤ chain.stepsUsed := Nat.mod_le _ _

theorem counter_eq {chain : TransferChain} (h : chain.stepsUsed < 2 ^ 64) :
    chain.counter = chain.stepsUsed := Nat.mod_eq_of_lt h

def expired (chain : TransferChain) (now : ℕ) : Bool :=
  chain.deadline.any fun dl ↦ dl ≤ now

def check (chain : TransferChain) (now : ℕ) : CancelCheck × TransferChain :=
  if chain.cancelled then (.cancelled, chain)
  else if chain.expired now then (.timedOut, { chain with cancelled := true })
  else (.ok, chain)

def answer : Handler Effect Answer TransferChain Moment
  | chain, .charge, _ => some chain.charge
  | chain, .check, m => some (chain.check m.now)
  | chain, .invoke call, m => some (m.blocks call, chain)

end TransferChain

/-! ## The end of a flow -/

def responseMetaOf (msg : Message) : List MetaEntry :=
  msg.entries.filter fun e ↦ "resp.".toList.isPrefixOf e.key.toList

def withCarried (st : ExecState) (own : List MetaEntry) : List MetaEntry :=
  (overlay (carried ⟨st.responderRecord, st.msg.entries⟩) own).1

def afterHead (host : Host) (inherited : List MetaEntry) (step : String) :
    StreamEvent → Option StreamEvent
  | .chunk bytes => some (.chunk bytes)
  | .metadata _ => none
  | .complete _ => some (.complete [])
  | .error err =>
    let err :=
      match firstUnsendable err.entries with
      | none => err
      | some invalid =>
        .new .internal (step ++ " produced unsendable response meta: " ++ invalid.display host)
    some (.error { err with entries := (overlay inherited err.entries).1 })
  | .halt .. | .drop _ | .continue _ =>
    some (.error { WaferError.new .internal
      (step ++ " ended its streamed response with a terminal that cannot follow a body") with
      entries := (overlay inherited []).1 })

/-- The terminal of a flow that stops early. -/
def ShortCircuit.intoOutput (host : Host) (st : ExecState) : ShortCircuit → OutputStream
  | .error err => .ofEvents [.error { err with entries := withCarried st err.entries }]
  | .halt response => .ofEvents [.halt response.body (withCarried st response.entries)]
  | .drop entries => .ofEvents [.drop (withCarried st entries)]
  | .stream output step =>
    (output.rewriteProduced
      (afterHead host (carried ⟨st.responderRecord, st.msg.entries⟩) step)).prepend
      ((responseMetaOf st.msg).map .metadata)

def respondWithMeta (body : Bytes) (entries : List MetaEntry) : OutputStream :=
  .ofEvents ((if body = [] then [] else [.chunk body]) ++ [.complete entries])

/-! ## The loop over steps and flows -/

/-- Where a chain is. -/
inductive Phase
  | entering (flow : CompiledFlow) (msg : Message) (input : Except WaferError Bytes)
      (record : ResponderRecord)
  | running (flow : CompiledFlow) (current : ℕ) (routed : Bool) (run : Run)
  | finished (output : OutputStream)

/-- A chain, with the effects its steps have performed so far and the flows it has entered, newest
first. -/
structure ChainState where
  chain : TransferChain
  trace : List (Σ e, Answer e)
  entered : List CompiledFlow
  phase : Phase

inductive ChainAct
  | enter (now : ℕ)
  | work (position : List ℕ) (moment : Moment)
  | advance

/-- Whether a step may forward a streamed response: it ends the flow and has one output. -/
def isTerminalStep (flow : CompiledFlow) (current : ℕ) (routed : Bool) (step : CompiledStep) :
    Bool :=
  step.plan.next.isNone && (routed || current + 1 = flow.steps.length) && step.plan.each.isNone &&
    step.parallel.isNone

def startStep (host : Host) (chain : TransferChain) (flow : CompiledFlow) (current : ℕ)
    (routed : Bool) (st : ExecState) : Phase :=
  match flow.steps[current]? with
  | none => .finished (respondWithMeta st.body (responseMetaOf st.msg))
  | some step =>
    let mode := if isTerminalStep flow current routed step then .forwardStream else .collect
    .running flow current routed
      (runStep ⟨flow, host, chain.maxSteps⟩ step mode st fun st ↦ .done (.ok st))

def startFlow (host : Host) (chain : TransferChain) (flow : CompiledFlow) (msg : Message)
    (input : Except WaferError Bytes) (record : ResponderRecord) : Phase :=
  match input with
  | .error err => .finished (.ofEvents [.error err])
  | .ok body =>
    let acc :=
      if flow.usesAccumulator then Accumulator.new.set "input" ((host.fromSlice body).getD .null)
      else .new
    startStep host chain flow 0 false ⟨acc, body, msg, record⟩

def route (flow : CompiledFlow) (step : StepPlan) (st : ExecState) :
    List CompiledNextEntry → Except WaferError (Option NextTarget)
  | [] => .ok none
  | entry :: entries =>
    match entry.when? with
    | none => .ok (some entry.target)
    | some (condition, eval) =>
      match eval st.acc.get with
      | .ok true => .ok (some entry.target)
      | .ok false => route flow step st entries
      | .error e =>
        .error (.new .invalidArgument ("flow '" ++ flow.id ++ "' step '" ++ step.id ++
          "': condition '" ++ condition ++ "' failed to evaluate: " ++ e))

def afterStep (wafer : String → Option CompiledFlow) (host : Host) (chain : TransferChain)
    (flow : CompiledFlow) (current : ℕ) (routed : Bool) (step : StepPlan) (st : ExecState) :
    Phase :=
  let stop (err : WaferError) : Phase := .finished (ShortCircuit.intoOutput host st (.error err))
  match step.next with
  | none =>
    if routed then .finished (respondWithMeta st.body (responseMetaOf st.msg))
    else startStep host chain flow (current + 1) false st
  | some entries =>
    match route flow step st entries with
    | .error err => stop err
    | .ok (some (.step index)) => startStep host chain flow index true st
    | .ok (some (.missingStep id)) =>
      stop (.new .unimplemented ("next target step '" ++ id ++ "' does not exist"))
    | .ok (some (.flow id)) =>
      match wafer id with
      | none => stop (.new .unimplemented ("flow is not registered: " ++ id))
      | some target => .entering target st.msg (.ok st.body) st.responderRecord
    | .ok (some .none) | .ok none => startStep host chain flow (current + 1) false st

def chainStep (wafer : String → Option CompiledFlow) (host : Host) (s : ChainState) :
    ChainAct → Option ChainState
  | .enter now =>
    match s.phase with
    | .entering flow msg input record =>
      let chain := s.chain.enter flow now
      some { s with
        chain := chain
        entered := flow :: s.entered
        phase := startFlow host chain flow msg input record }
    | _ => none
  | .work position moment =>
    match s.phase with
    | .running flow current routed run =>
      (stepAt (traced TransferChain.answer) moment position ((s.chain, s.trace), run)).map
        fun ((chain, trace), run) ↦
          { s with chain := chain, trace := trace, phase := .running flow current routed run }
    | _ => none
  | .advance =>
    match s.phase with
    | .running _ _ _ (.done (.error (stop, st))) =>
      some { s with phase := .finished (stop.intoOutput host st) }
    | .running flow current routed (.done (.ok st)) =>
      (flow.steps[current]?).map fun step ↦
        { s with phase := afterStep wafer host s.chain flow current routed step.plan st }
    | _ => none

def runPlan (flow : CompiledFlow) (msg : Message) (input : Except WaferError Bytes) : ChainState :=
  ⟨.new, [], [], .entering flow msg input fun _ ↦ none⟩

end WaferRun
