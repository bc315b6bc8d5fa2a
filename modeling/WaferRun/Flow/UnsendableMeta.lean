import WaferRun.Flow.ChainBounds
import WaferRun.Flow.Streaming
import WaferRun.Lib.Contracts
import WaferRun.Runtime.InitRefusal

/-!
# Response metadata no transport can send

An entry that no transport can send must not reach a transport because some step of the flow wrote
it. The executor checks what a step produced before any of it is laid over the message. So nothing
that cannot be sent is ever on the message of a flow, or on what a flow answers, unless it was on
the inbound message.

The message is hidden in the strands of the executor. What is said about it here is said as a
contract (`sendingContract`): about the state in which a strand is refused a charge or a check,
invokes a block, or ends. The rules of the executor's pieces follow the pieces, as in `Boundaries`.

What is not refused is dropped. After the head of a streamed response only its chunks and its end
pass, and in a fork the first failure in the order of declaration ends the flow, whichever branch
produced what cannot be sent.
-/

open List

namespace WaferRun

open Strand

def NothingNew (inbound entries : List MetaEntry) : Prop :=
  ∀ e ∈ entries, ¬Sendable e → e ∈ inbound

def StreamEvent.entries : StreamEvent → List MetaEntry
  | .chunk _ => []
  | .metadata entry => [entry]
  | .complete entries => entries
  | .error err => err.entries
  | .drop entries => entries
  | .halt _ entries => entries
  | .continue msg => msg.entries

/-- The entries a terminal brings with it, before anything is carried onto it. Of a stream these are
the entries of the events that have been read ahead. -/
def ShortCircuit.own : ShortCircuit → List MetaEntry
  | .error err => err.entries
  | .halt response => response.entries
  | .drop entries => entries
  | .stream output _ => output.prelude.flatMap StreamEvent.entries

def producedBy (mode : ResponseMode) (st : ExecState) : Reply → List MetaEntry
  | .error _ => []
  | .ok output =>
    match readOutput mode output with
    | .collected buf => producedEntries st buf
    | .streaming entries _ => entries

/-- What a dispatch can answer: a refusal of the runtime, or an output. If the block put events back
on its output, those behind the leading metadata can be sent. -/
def Reply.Proper : Reply → Prop
  | .error err => IsInitRefusal err
  | .ok output => ∀ ev ∈ (OutputStream.splitMeta output.prelude).2, ∀ e ∈ ev.entries, Sendable e

/-! ## The contract -/

/-- How a strand may end: nothing new is on the message, and its terminal can be sent. -/
def EndsSendable (inbound : List MetaEntry) : StepResult → Prop
  | .ok st => NothingNew inbound st.msg.entries
  | .error (stop, st) => NothingNew inbound st.msg.entries ∧ ∀ e ∈ stop.own, Sendable e

def GivesUp (inbound : List MetaEntry) (x : Run) : Prop :=
  ∃ stop st, x = .done (.error (stop, st)) ∧ NothingNew inbound st.msg.entries

/-- A block is invoked in the state `st`: the reply is applied to that state. -/
structure InvokedIn (env : StepEnv) (step : StepPlan) (mode : ResponseMode) (st : ExecState)
    (call : Call) (k : Reply → Run) : Prop where
  msg : call.msg = st.msg
  goesOn : ∃ next : ExecState → InvocationOutcome → Run, ∀ reply,
    k reply = match applyReply env step mode st reply with
      | .error stop => .done (.error stop)
      | .ok (st', outcome) => next st' outcome

/-- An invocation fails closed: nothing new is on the message, and if the block produces anything
that cannot be sent, the strand ends with an internal error in the state it was in. -/
def FailsClosed (inbound : List MetaEntry) (call : Call) (k : Reply → Run) : Prop :=
  ∃ env step mode st, InvokedIn env step mode st call k ∧ NothingNew inbound st.msg.entries ∧
    ∀ reply, (∃ e ∈ producedBy mode st reply, ¬Sendable e) →
      ∃ text, k reply = .done (.error (.error (.new .internal text), st))

def PerformsSendable (inbound : List MetaEntry) : ∀ e, (Answer e → Run) → Prop
  | .charge, k => GivesUp inbound (k false)
  | .check, k => GivesUp inbound (k .cancelled) ∧ GivesUp inbound (k .timedOut)
  | .invoke call, k => FailsClosed inbound call k

/-- A fork with a failed branch ends with the first failure, in a state with nothing new on the
message. -/
def JoinsSendable (inbound : List MetaEntry) (k : List StepResult → Run) : Prop :=
  ∃ st, NothingNew inbound st.msg.entries ∧
    ∀ rs stop, firstFailure rs = some stop → k rs = .done (.error (stop, st))

/-- What the strands of a flow keep to, if the blocks answer as they can. -/
def sendingContract (inbound : List MetaEntry) : Contract Effect Answer StepResult where
  accepts
    | .charge, _ | .check, _ => True
    | .invoke _, reply => Reply.Proper reply
  performs := PerformsSendable inbound
  joins := JoinsSendable inbound
  ends := EndsSendable inbound

abbrev Sending (inbound : List MetaEntry) (x : Run) : Prop := Honours (sendingContract inbound) x

/-! ## What a reply does -/

section Replies

variable {inbound : List MetaEntry} {env : StepEnv} {step : StepPlan} {mode : ResponseMode}
variable {st : ExecState} {reply : Reply}

theorem nothingNew_of_sendable {entries : List MetaEntry} (h : ∀ e ∈ entries, Sendable e) :
    NothingNew inbound entries := fun e he hs ↦ absurd (h e he) hs

theorem firstUnsendable_ne_none {entries : List MetaEntry} (h : ∃ e ∈ entries, ¬Sendable e) :
    ∃ invalid, firstUnsendable entries = some invalid := by
  obtain ⟨e, he, hs⟩ := h
  refine Option.ne_none_iff_exists'.mp fun hnone ↦ hs ?_
  exact firstUnsendable_eq_none_iff.mp hnone e he

/-- **What cannot be sent is refused**, whatever the flow says about errors, and the state stays as
it was. -/
theorem applyReply_of_not_sendable (env : StepEnv) (step : StepPlan)
    (h : ∃ e ∈ producedBy mode st reply, ¬Sendable e) :
    ∃ text, applyReply env step mode st reply = .error (.error (.new .internal text), st) := by
  obtain ⟨invalid, hinvalid⟩ := firstUnsendable_ne_none h
  rcases reply with err | output
  · cases hinvalid
  · let text := stepLabel step ++ " produced unsendable response meta: "
    refine ⟨text ++ invalid.display env.host, ?_⟩
    unfold applyReply
    unfold producedBy at hinvalid
    dsimp only at hinvalid ⊢
    generalize readOutput mode output = out at hinvalid ⊢
    rcases out with buf | ⟨entries, rest⟩
    · dsimp only at hinvalid ⊢
      unfold applyCollected
      rw [hinvalid]
      rfl
    · dsimp only at hinvalid ⊢
      rw [forwardStream, hinvalid]
      rfl

theorem nothingNew_layOver {entries : List MetaEntry} (h : NothingNew inbound st.msg.entries)
    (hs : ∀ e ∈ entries, Sendable e) : NothingNew inbound (layOver st entries).msg.entries := by
  intro e he hne
  rw [layOver_entries] at he
  rcases mem_overlay hs he with hbase | hsend
  · exact h e (mem_filter.mp hbase).1 hne
  · exact absurd hsend hne

theorem endsSendable_of_applyCollected {buf : Except TerminalNotResponse BufferedResponse}
    (h : NothingNew inbound st.msg.entries) :
    match applyCollected env step st buf with
    | .error stop => EndsSendable inbound (.error stop)
    | .ok (st', _) => NothingNew inbound st'.msg.entries := by
  unfold applyCollected
  cases hfirst : firstUnsendable (producedEntries st buf) with
  | some invalid => exact ⟨h, fun e he ↦ absurd he not_mem_nil⟩
  | none =>
    have hproduced := firstUnsendable_eq_none_iff.mp hfirst
    rcases buf with terminal | response
    · cases terminal with
      | error err =>
        dsimp only
        cases env.flow.onError with
        | stop => exact ⟨h, hproduced⟩
        | «continue» => exact h
      | drop entries => exact ⟨h, hproduced⟩
      | halt response => exact ⟨h, hproduced⟩
      | «continue» next =>
        -- what a middleware left as it was is not checked, and need not be
        intro e he hne
        by_cases hold : e ∈ st.msg.entries
        · exact h e hold hne
        · exact absurd (hproduced e (mem_filter.mpr ⟨he, by simpa using hold⟩)) hne
      | malformed => exact ⟨h, fun e he ↦ absurd he not_mem_nil⟩
    · exact @nothingNew_layOver _ { st with body := response.body } _ h hproduced

theorem sendable_prelude_of_readOutput {output rest : OutputStream} {top : List MetaEntry}
    (hread : readOutput mode output = .streaming top rest) (h : Reply.Proper (.ok output)) :
    ∀ e ∈ rest.prelude.flatMap StreamEvent.entries, Sendable e := by
  cases mode with
  | collect => cases hread
  | forwardStream =>
    simp only [readOutput, openTerminalOutput] at hread
    split_ifs at hread with hd
    cases hread
    obtain ⟨-, hchunk⟩ := Bool.and_eq_true_iff.mp hd
    obtain ⟨first, hfirst, hisChunk⟩ := (Option.any_eq_true _ _).mp hchunk
    rw [prelude_peek hfirst, flatMap_cons]
    intro e he
    rcases mem_append.mp he with he | he
    · cases first with
      | chunk bytes => exact absurd he not_mem_nil
      | metadata _ | complete _ | error _ | drop _ | halt _ _ | «continue» _ => cases hisChunk
    · obtain ⟨ev, hev, he⟩ := mem_flatMap.mp he
      refine h ev ?_ e he
      unfold OutputStream.takeLeadingMeta at hev
      dsimp only at hev
      split at hev
      · exact mem_of_mem_tail hev
      · rename_i hmeta
        -- with nothing but metadata put back, one event at most has been read behind it
        have hlen := @splitMeta_readAhead output.rewrite output.prelude output.produced
          (by simpa using hmeta)
        have htail := length_pos_of_mem hev
        rw [length_tail] at htail
        omega

/-- A reply leaves nothing new on the message, and a terminal it ends the strand with can be sent.
-/
theorem endsSendable_of_applyReply (env : StepEnv) (step : StepPlan) (mode : ResponseMode)
    (h : NothingNew inbound st.msg.entries) (hreply : reply.Proper) :
    match applyReply env step mode st reply with
    | .error stop => EndsSendable inbound (.error stop)
    | .ok (st', _) => NothingNew inbound st'.msg.entries := by
  unfold applyReply
  rcases reply with err | output
  · exact ⟨h, IsInitRefusal.sendable hreply⟩
  · dsimp only
    cases hread : readOutput mode output with
    | collected buf => exact endsSendable_of_applyCollected h
    | streaming entries rest =>
      dsimp only
      rw [forwardStream]
      cases hfirst : firstUnsendable entries with
      | some invalid => exact ⟨h, fun e he ↦ absurd he not_mem_nil⟩
      | none =>
        exact ⟨nothingNew_layOver h (firstUnsendable_eq_none_iff.mp hfirst),
          sendable_prelude_of_readOutput hread hreply⟩

end Replies

/-! ## The pieces of the executor -/

section Pieces

variable {inbound : List MetaEntry} {env : StepEnv} {step : StepPlan} {st st' : ExecState}

theorem sending_ok (h : NothingNew inbound st.msg.entries) : Sending inbound (.done (.ok st)) :=
  .done h

theorem sending_fail {err : WaferError} (h : NothingNew inbound st.msg.entries)
    (herr : err.entries = []) : Sending inbound (fail st (.error err)) := by
  refine .done ⟨h, fun e he ↦ ?_⟩
  rw [ShortCircuit.own, herr] at he
  exact absurd he not_mem_nil

theorem sending_checkBudget {k : Run} (h : NothingNew inbound st.msg.entries)
    (hk : Sending inbound k) : Sending inbound (checkBudget env st k) := by
  refine .perform ⟨_, _, rfl, h⟩ fun charged _ ↦ ?_
  split
  · exact hk
  · exact sending_fail h rfl

theorem sending_checkCancelDeadline {k : Run} (h : NothingNew inbound st.msg.entries)
    (hk : Sending inbound k) : Sending inbound (checkCancelDeadline env st k) := by
  refine .perform ⟨⟨_, _, rfl, h⟩, ⟨_, _, rfl, h⟩⟩ fun answer _ ↦ ?_
  split
  · exact hk
  · exact sending_fail h rfl
  · exact sending_fail h rfl

theorem msg_resolveInput (h : resolveInput env step st = .ok st') : st'.msg = st.msg := by
  unfold resolveInput at h
  split at h
  · cases h
    rfl
  · split at h
    · cases h
    · split at h
      · cases h
        rfl
      · cases h

theorem entries_resolveInput {err : WaferError} (h : resolveInput env step st = .error err) :
    err.entries = [] := by
  unfold resolveInput at h
  split at h
  · cases h
  · split at h
    · cases h
      rfl
    · split at h
      · cases h
      · cases h
        rfl

theorem msg_itemBody {index : ℕ} {item : Json} (h : itemBody env step index item st = .ok st') :
    st'.msg = st.msg := by
  unfold itemBody at h
  split at h
  · cases h
    rfl
  · split at h
    · cases h
      rfl
    · cases h

theorem entries_itemBody {index : ℕ} {item : Json} {err : WaferError}
    (h : itemBody env step index item st = .error err) : err.entries = [] := by
  unfold itemBody at h
  split at h
  · cases h
  · split at h
    · cases h
    · cases h
      rfl

theorem sending_runInvocation {mode : ResponseMode} {k : ExecState → InvocationOutcome → Run}
    (h : NothingNew inbound st.msg.entries)
    (hk : ∀ st' o, NothingNew inbound st'.msg.entries → Sending inbound (k st' o)) :
    Sending inbound (runInvocation env step mode st k) := by
  apply sending_checkCancelDeadline h
  split
  · rename_i err herr
    exact sending_fail h (entries_resolveInput herr)
  · rename_i st₁ hin
    have h₁ : NothingNew inbound st₁.msg.entries := by rwa [msg_resolveInput hin]
    split
    · exact sending_fail h₁ rfl
    · refine .perform ⟨env, step, mode, st₁, ⟨rfl, k, fun reply ↦ rfl⟩, h₁, ?_⟩ ?_
      · intro reply hproduced
        obtain ⟨text, hrefused⟩ := applyReply_of_not_sendable env step hproduced
        refine ⟨text, ?_⟩
        dsimp only
        rw [hrefused]
      · intro reply hreply
        have hends := endsSendable_of_applyReply env step mode h₁ hreply
        split
        · rename_i stop hstop
          rw [hstop] at hends
          exact .done hends
        · rename_i st₂ o hok
          rw [hok] at hends
          exact hk st₂ o hends

theorem sending_runItems {k : ExecState → List Json → Run} (items : List Json)
    (hk : ∀ st' results, NothingNew inbound st'.msg.entries → Sending inbound (k st' results)) :
    ∀ {index : ℕ} {results : List Json} {st : ExecState}, NothingNew inbound st.msg.entries →
      Sending inbound (runItems env step k index items results st) := by
  induction items with
  | nil => exact fun h ↦ hk _ _ h
  | cons item items ih =>
    intro index results st h
    apply sending_checkBudget h
    apply sending_checkCancelDeadline h
    split
    · rename_i err herr
      exact sending_fail h (entries_itemBody herr)
    · rename_i st₁ hbody
      refine sending_runInvocation ?_ fun st₂ o h₂ ↦ ih h₂
      change NothingNew inbound st₁.msg.entries
      rwa [msg_itemBody hbody]

theorem sending_runEach {each : CompiledEach} {k : ExecState → Run}
    (h : NothingNew inbound st.msg.entries)
    (hk : ∀ st', NothingNew inbound st'.msg.entries → Sending inbound (k st')) :
    Sending inbound (runEach env step each st k) := by
  rw [runEach]
  split
  · refine sending_runItems _ (fun st₁ results h₁ ↦ ?_) h
    dsimp only
    split
    · exact hk _ h₁
    · exact sending_fail h₁ rfl
  · exact sending_fail h rfl
  · exact sending_fail h rfl

theorem sending_runBlock {mode : ResponseMode} {k : ExecState → Run}
    (h : NothingNew inbound st.msg.entries)
    (hk : ∀ st', NothingNew inbound st'.msg.entries → Sending inbound (k st')) :
    Sending inbound (runBlock env step mode st k) := by
  rw [runBlock]
  split
  · exact sending_runEach h hk
  · refine sending_runInvocation h fun st' o h' ↦ ?_
    split
    · exact hk _ h'
    · exact hk _ h'

/-- A step keeps to the contract if what follows it does. -/
def StepSends (inbound : List MetaEntry) (env : StepEnv) (s : CompiledStep) : Prop :=
  ∀ (mode : ResponseMode) (st : ExecState) (k : ExecState → Run),
    NothingNew inbound st.msg.entries →
    (∀ st', NothingNew inbound st'.msg.entries → Sending inbound (k st')) →
    Sending inbound (runStep env s mode st k)

theorem sending_runBranchSteps {ss : List CompiledStep} (hss : ∀ s ∈ ss, StepSends inbound env s)
    {k : ExecState → Run} (h : NothingNew inbound st.msg.entries)
    (hk : ∀ st', NothingNew inbound st'.msg.entries → Sending inbound (k st')) :
    Sending inbound (runBranchSteps env ss st k) := by
  induction ss generalizing st with
  | nil => exact hk st h
  | cons s ss ih =>
    rw [forall_mem_cons] at hss
    rw [runBranchSteps]
    split
    · exact sending_fail h rfl
    · exact hss.1 _ _ _ h fun st₁ h₁ ↦ ih hss.2 h₁

theorem mem_of_firstFailure {rs : List StepResult} {stop : ShortCircuit}
    (h : firstFailure rs = some stop) : ∃ st, .error (stop, st) ∈ rs := by
  fun_induction firstFailure rs with
  | case1 => cases h
  | case2 stop' st rs =>
    cases h
    exact ⟨st, mem_cons_self⟩
  | case3 st rs ih =>
    obtain ⟨st', hst⟩ := ih h
    exact ⟨st', mem_cons_of_mem _ hst⟩

theorem stepSends (inbound : List MetaEntry) (env : StepEnv) (s : CompiledStep) :
    StepSends inbound env s := by
  induction s using CompiledStep.induct with
  | h plan parallel ih =>
    intro mode st k h hk
    rw [runStep]
    apply sending_checkBudget h
    apply sending_checkCancelDeadline h
    cases parallel with
    | none => exact sending_runBlock h hk
    | some bs =>
      refine .fork ⟨st, h, fun rs stop hstop ↦ ?_⟩ ?_ fun rs hrs ↦ ?_
      · rw [joinBranches, hstop]
        rfl
      · rw [branchRuns_eq_map]
        intro x hx
        obtain ⟨b, hb, rfl⟩ := mem_map.mp hx
        exact sending_runBranchSteps (fun s hs ↦ ih bs rfl b hb s hs) h fun st' h' ↦ sending_ok h'
      · rw [joinBranches]
        split
        · rename_i stop hstop
          obtain ⟨st', hmem⟩ := mem_of_firstFailure hstop
          exact .done ⟨h, (hrs _ hmem).2⟩
        · exact sending_runBlock h hk

end Pieces

/-! ## What a flow answers -/

section Answers

variable {inbound own : List MetaEntry} {host : Host} {st : ExecState}

theorem overlay_nil (base : List MetaEntry) : overlay base [] = (base, []) := by
  have hbase : withoutDisplaced base [] = base := by simp [withoutDisplaced]
  exact congrArg (·, []) hbase

theorem sendable_of_mem_carried {s : FlowMeta} {e : MetaEntry} (h : e ∈ carried s) :
    Sendable e := by
  by_contra hs
  have hinherited := (mem_filter.mp h).2
  rw [inherited, kind_of_not_sendable hs] at hinherited
  cases hinherited

theorem sendable_overlay {base top : List MetaEntry} (hbase : ∀ e ∈ base, Sendable e)
    (htop : ∀ e ∈ top, Sendable e) : ∀ e ∈ (overlay base top).1, Sendable e := fun e he ↦
  (mem_overlay htop he).elim (hbase e) id

theorem afterHead_of_not_sendable {label : String} {err : WaferError}
    (h : ∃ e ∈ err.entries, ¬Sendable e) :
    ∃ text, afterHead host own label (.error err) = some (.error ⟨.internal, text, own⟩) := by
  obtain ⟨invalid, hinvalid⟩ := firstUnsendable_ne_none h
  refine ⟨label ++ " produced unsendable response meta: " ++ invalid.display host, ?_⟩
  simp only [afterHead, hinvalid, WaferError.new, overlay_nil]

theorem sendable_afterHead {label : String} {ev ev' : StreamEvent}
    (hown : ∀ e ∈ own, Sendable e) (h : afterHead host own label ev = some ev') :
    ∀ e ∈ ev'.entries, Sendable e := by
  have hnone : ∀ e ∈ (overlay own []).1, Sendable e := by
    rw [overlay_nil]
    exact hown
  cases ev with
  | chunk bytes =>
    cases h
    exact fun e he ↦ absurd he not_mem_nil
  | metadata entry => cases h
  | complete entries =>
    cases h
    exact fun e he ↦ absurd he not_mem_nil
  | error err =>
    cases hfirst : firstUnsendable err.entries with
    | none =>
      simp only [afterHead, hfirst, Option.some.injEq] at h
      rw [← h]
      exact sendable_overlay hown (firstUnsendable_eq_none_iff.mp hfirst)
    | some invalid =>
      simp only [afterHead, hfirst, Option.some.injEq] at h
      rw [← h]
      exact hnone
  | drop entries =>
    cases h
    exact hnone
  | halt body entries =>
    cases h
    exact hnone
  | «continue» msg =>
    cases h
    exact hnone

theorem nothingNew_responseMetaOf {msg : Message} (h : NothingNew inbound msg.entries) :
    NothingNew inbound (responseMetaOf msg) := fun e he ↦ h e (mem_filter.mp he).1

theorem nothingNew_ofEvents_singleton {ev : StreamEvent} (h : NothingNew inbound ev.entries) :
    ∀ ev' ∈ (OutputStream.ofEvents [ev]).events, NothingNew inbound ev'.entries := by
  intro ev' hev
  rw [mem_singleton.mp hev]
  exact h

theorem nothingNew_withCarried (h : ∀ e ∈ own, Sendable e) :
    NothingNew inbound (withCarried st own) :=
  nothingNew_of_sendable (sendable_overlay (fun _ ↦ sendable_of_mem_carried) h)

theorem nothingNew_intoOutput {stop : ShortCircuit}
    (h : EndsSendable inbound (.error (stop, st))) :
    ∀ ev ∈ (stop.intoOutput host st).events, NothingNew inbound ev.entries := by
  obtain ⟨hmsg, hown⟩ := h
  cases stop with
  | error err => exact nothingNew_ofEvents_singleton (nothingNew_withCarried hown)
  | halt response => exact nothingNew_ofEvents_singleton (nothingNew_withCarried hown)
  | drop entries => exact nothingNew_ofEvents_singleton (nothingNew_withCarried hown)
  | stream output label =>
    intro ev hev
    rw [ShortCircuit.intoOutput, OutputStream.events_prepend] at hev
    rcases mem_append.mp hev with hev | hev
    · -- the head is the response metadata of the message
      obtain ⟨entry, hentry, rfl⟩ := mem_map.mp hev
      intro e he
      rw [mem_singleton.mp he]
      exact nothingNew_responseMetaOf hmsg entry hentry
    · refine nothingNew_of_sendable ?_
      rcases mem_append.mp hev with hev | hev
      · exact fun e he ↦ hown e (mem_flatMap.mpr ⟨ev, hev, he⟩)
      · obtain ⟨produced, -, hrewritten⟩ := mem_filterMap.mp hev
        obtain ⟨ev₁, -, hafter⟩ := Option.bind_eq_some_iff.mp hrewritten
        exact sendable_afterHead (fun _ ↦ sendable_of_mem_carried) hafter

theorem nothingNew_respondWithMeta {body : Bytes} (h : NothingNew inbound st.msg.entries) :
    ∀ ev ∈ (respondWithMeta body (responseMetaOf st.msg)).events,
      NothingNew inbound ev.entries := by
  intro ev hev
  rw [respondWithMeta, OutputStream.ofEvents, OutputStream.events, nil_append,
    filterMap_some] at hev
  rcases mem_append.mp hev with hev | hev
  · split_ifs at hev
    · exact absurd hev not_mem_nil
    · rw [mem_singleton.mp hev]
      exact fun e he ↦ absurd he not_mem_nil
  · rw [mem_singleton.mp hev]
    exact nothingNew_responseMetaOf h

end Answers

/-! ## Every run -/

def Phase.Sends (inbound : List MetaEntry) : Phase → Prop
  | .entering _ msg input _ => NothingNew inbound msg.entries ∧
      ∀ err, input = .error err → ∀ e ∈ err.entries, Sendable e
  | .running _ _ _ run => Sending inbound run
  | .finished output => ∀ ev ∈ output.events, NothingNew inbound ev.entries

/-- What can be said of a chain: nothing but the entries of the inbound message is ever on the
message of a flow or on what it answers, and its strands fail closed. -/
structure ChainState.KeepsOut (inbound : List MetaEntry) (s : ChainState) : Prop where
  invoked : ∀ call reply, ⟨.invoke call, reply⟩ ∈ s.trace → NothingNew inbound call.msg.entries
  entering : ∀ flow msg input record, s.phase = .entering flow msg input record →
    NothingNew inbound msg.entries
  performs : ∀ flow current routed run, s.phase = .running flow current routed run →
    ∀ e k, Part (.perform e k) run → PerformsSendable inbound e k
  joins : ∀ flow current routed run, s.phase = .running flow current routed run →
    ∀ bs k, Part (.fork bs k) run → JoinsSendable inbound k
  ends : ∀ flow current routed run, s.phase = .running flow current routed run →
    ∀ r, Part (.done r) run → EndsSendable inbound r
  answered : ∀ output, s.phase = .finished output → ∀ ev ∈ output.events,
    NothingNew inbound ev.entries

section Runs

variable {wafer : String → Option CompiledFlow} {host : Host} {inbound : List MetaEntry}
variable {flow : CompiledFlow} {st : ExecState}

theorem sending_startStep (h : NothingNew inbound st.msg.entries) (chain : TransferChain)
    (current : ℕ) (routed : Bool) :
    (startStep host chain flow current routed st).Sends inbound := by
  rw [startStep]
  split
  · exact nothingNew_respondWithMeta h
  · exact stepSends inbound _ _ _ _ _ h fun _ h' ↦ sending_ok h'

theorem sending_startFlow {msg : Message} {input : Except WaferError Bytes}
    {record : ResponderRecord}
    (h : (Phase.entering flow msg input record).Sends inbound) (chain : TransferChain) :
    (startFlow host chain flow msg input record).Sends inbound := by
  cases input with
  | error err => exact nothingNew_ofEvents_singleton (nothingNew_of_sendable (h.2 err rfl))
  | ok body => exact sending_startStep h.1 _ _ _

theorem entries_route {step : StepPlan} {entries : List CompiledNextEntry} {err : WaferError}
    (h : route flow step st entries = .error err) : err.entries = [] := by
  induction entries with
  | nil => cases h
  | cons entry entries ih =>
    rw [route] at h
    split at h
    · cases h
    · split at h
      · cases h
      · exact ih h
      · cases h
        rfl

theorem sending_afterStep (h : NothingNew inbound st.msg.entries) (chain : TransferChain)
    (current : ℕ) (routed : Bool) (step : StepPlan) :
    (afterStep wafer host chain flow current routed step st).Sends inbound := by
  have hstop : ∀ err : WaferError, err.entries = [] → (Phase.finished
      (ShortCircuit.intoOutput host st (.error err))).Sends inbound := by
    refine fun err herr ↦ nothingNew_intoOutput ⟨h, fun e he ↦ ?_⟩
    rw [ShortCircuit.own, herr] at he
    exact absurd he not_mem_nil
  rw [afterStep]
  split
  · split
    · exact nothingNew_respondWithMeta h
    · exact sending_startStep h _ _ _
  · split
    · rename_i err herr
      exact hstop err (entries_route herr)
    · exact sending_startStep h _ _ _
    · exact hstop _ rfl
    · split
      · exact hstop _ rfl
      · exact ⟨h, fun err herr ↦ (by cases herr)⟩
    · exact sending_startStep h _ _ _
    · exact sending_startStep h _ _ _

def Accepted (inbound : List MetaEntry) (trace : List (Σ e, Answer e)) : Prop :=
  ∀ p ∈ trace, (sendingContract inbound).accepts p.1 p.2

/-- What the runs of a chain keep: as far as its blocks have answered as they can, nothing new has
come up, and no block has been called with anything new. -/
def Kept (inbound : List MetaEntry) (s : ChainState) : Prop :=
  Accepted inbound s.trace → s.phase.Sends inbound ∧
    ∀ call reply, ⟨.invoke call, reply⟩ ∈ s.trace → NothingNew inbound call.msg.entries

theorem Kept.move {s t : ChainState} (hs : Kept inbound s) (h : ChainMove wafer host s t) :
    Kept inbound t := by
  intro haccepted
  cases h with
  | enter now h =>
    obtain ⟨hphase, hcalls⟩ := hs haccepted
    rw [h] at hphase
    exact ⟨sending_startFlow hphase _, hcalls⟩
  | @work flow current routed run t y h hstep =>
    obtain ⟨hphase, hcalls⟩ := hs fun p hp ↦ haccepted p (hstep.log_subset hp)
    rw [h] at hphase
    obtain ⟨hkept, hlog⟩ := Honours.step hstep hphase
    refine ⟨hkept haccepted, fun call reply hmem ↦ ?_⟩
    change _ ∈ t.2 at hmem
    rcases hlog with hsame | ⟨e, a, k, hlog, hperforms⟩
    · rw [hsame] at hmem
      exact hcalls call reply hmem
    · rw [hlog] at hmem
      rcases mem_cons.mp hmem with heq | hmem
      · cases heq
        obtain ⟨env, step, mode, st, hinvoked, hst, -⟩ := hperforms
        rwa [hinvoked.msg]
      · exact hcalls call reply hmem
  | stop h =>
    obtain ⟨hphase, hcalls⟩ := hs haccepted
    rw [h] at hphase
    exact ⟨nothingNew_intoOutput hphase.ends_of_done, hcalls⟩
  | advance h hstep =>
    obtain ⟨hphase, hcalls⟩ := hs haccepted
    rw [h] at hphase
    exact ⟨sending_afterStep hphase.ends_of_done _ _ _ _, hcalls⟩

theorem kept_run {msg : Message} {input : Except WaferError Bytes} {as : List ChainAct}
    {s : ChainState} (hinput : ∀ err, input = .error err → ∀ e ∈ err.entries, Sendable e)
    (h : Actions.run (chainStep wafer host) (runPlan flow msg input) as = some s) :
    Kept msg.entries s := by
  refine Actions.run_invariant (I := Kept msg.entries)
    (fun s a t hs hstep ↦ hs.move (chainMove_of_step hstep)) (fun _ ↦ ?_) h
  exact ⟨⟨fun e he _ ↦ he, hinput⟩, fun call reply hmem ↦ absurd hmem not_mem_nil⟩

theorem Kept.keepsOut {s : ChainState} (h : Kept inbound s) (haccepted : Accepted inbound s.trace) :
    s.KeepsOut inbound := by
  obtain ⟨hphase, hcalls⟩ := h haccepted
  refine ⟨hcalls, fun _ _ _ _ hp ↦ ?_, fun _ _ _ _ hp e k hpart ↦ ?_,
    fun _ _ _ _ hp bs k hpart ↦ ?_, fun _ _ _ _ hp r hpart ↦ ?_, fun _ hp ↦ ?_⟩ <;>
    rw [hp] at hphase
  · exact hphase.1
  · exact (Honours.part hphase hpart).performs_of_perform
  · exact (Honours.part hphase hpart).joins_of_fork
  · exact (Honours.part hphase hpart).ends_of_done
  · exact hphase

/-- When the main strand produces what cannot be sent, the flow ends with an internal error that
carries what the state before it carries. -/
theorem exists_ended_of_not_sendable {s : ChainState} {flow : CompiledFlow} {current : ℕ}
    {routed : Bool} {call : Call} {k : Reply → Run}
    (hphase : s.phase = .running flow current routed (.perform (.invoke call) k)) {moment : Moment}
    {text : String}
    (hk : k (moment.blocks call) = .done (.error (.error (.new .internal text), st))) :
    ∃ t, Actions.run (chainStep wafer host) s [.work [] moment, .advance] = some t ∧
      t.phase = .finished (.ofEvents
        [.error ⟨.internal, text, carried ⟨st.responderRecord, st.msg.entries⟩⟩]) := by
  let worked : ChainState :=
    { s with
      trace := ⟨.invoke call, moment.blocks call⟩ :: s.trace
      phase := .running flow current routed (.done (.error (.error (.new .internal text), st))) }
  have hwork : chainStep wafer host s (.work [] moment) = some worked := by
    rw [chainStep, hphase]
    change some { s with
      trace := _, phase := .running flow current routed (k (moment.blocks call)) } = some worked
    rw [hk]
  refine ⟨{ worked with
    phase := .finished ((ShortCircuit.error (.new .internal text)).intoOutput host st) }, ?_, ?_⟩
  · rw [Actions.run, hwork]
    rfl
  · simp only [ShortCircuit.intoOutput, WaferError.new, withCarried, overlay_nil]

end Runs

/-- **What cannot be sent stays out**, in every run. -/
theorem unsendable_meta_stays_out (wafer : String → Option CompiledFlow) (host : Host)
    (flow : CompiledFlow) (msg : Message) (input : Except WaferError Bytes) (as : List ChainAct)
    (s : ChainState) (hinput : ∀ err, input = .error err → ∀ e ∈ err.entries, Sendable e)
    (h : Actions.run (chainStep wafer host) (runPlan flow msg input) as = some s)
    (hreplies : ∀ call reply, ⟨.invoke call, reply⟩ ∈ s.trace → Reply.Proper reply) :
    s.KeepsOut msg.entries ∧
    (∀ flow current routed call k,
      s.phase = .running flow current routed (.perform (.invoke call) k) →
      ∃ env step mode st, InvokedIn env step mode st call k ∧
        ∀ moment : Moment, (∃ e ∈ producedBy mode st (moment.blocks call), ¬Sendable e) →
          ∃ text t,
            Actions.run (chainStep wafer host) s [.work [] moment, .advance] = some t ∧
            t.phase = .finished (.ofEvents
              [.error ⟨.internal, text, carried ⟨st.responderRecord, st.msg.entries⟩⟩])) ∧
    (∀ inherited label err, (∃ e ∈ err.entries, ¬Sendable e) →
      ∃ text, afterHead host inherited label (.error err) =
        some (.error ⟨.internal, text, inherited⟩)) := by
  have haccepted : Accepted msg.entries s.trace := by
    rintro ⟨e, a⟩ hp
    cases e with
    | charge => trivial
    | check => trivial
    | invoke call => exact hreplies call a hp
  have hkept := (kept_run hinput h).keepsOut haccepted
  refine ⟨hkept, fun flow current routed call k hphase ↦ ?_, fun _ _ _ ↦ afterHead_of_not_sendable⟩
  obtain ⟨env, step, mode, st, hinvoked, -, hrefuses⟩ :=
    hkept.performs _ _ _ _ hphase (.invoke call) k (.refl _)
  refine ⟨env, step, mode, st, hinvoked, fun moment hproduced ↦ ?_⟩
  obtain ⟨text, hk⟩ := hrefuses _ hproduced
  obtain ⟨t, ht⟩ := exists_ended_of_not_sendable hphase hk
  exact ⟨text, t, ht⟩

/-! ### A status that is not a number -/

namespace Teapot

def teapot : MetaEntry := ⟨metaRespStatus, "teapot"⟩

def step (id : String) : StepPlan := ⟨id, id, some id, none, [], none, none⟩

def flowOf (steps : List CompiledStep) : CompiledFlow := ⟨"tea", none, 10, .stop, false, steps⟩

def inbound : Message := ⟨"http.request", []⟩

def blocks (call : Call) : Reply :=
  if call.target = "pour" then .ok (.ofEvents [.continue call.msg])
  else if call.target = "stop" then .ok (.ofEvents [.halt [] []])
  else .ok (.ofEvents [.complete [teapot]])

def moment : Moment := ⟨0, blocks⟩

/-- A strand moves a number of times. -/
def work (position : List ℕ) (n : ℕ) : List ChainAct := List.replicate n (.work position moment)

/-- The first step lets the message pass, and the second is about to be answered. -/
def poured : List ChainAct := .enter 0 :: work [] 4 ++ .advance :: work [] 3

def brewing : CompiledFlow := flowOf [.mk (step "pour") none, .mk (step "brew") none]

def start : ChainState := runPlan brewing inbound (.ok [])

def reached : ChainState :=
  (Actions.run (chainStep (fun _ ↦ none) EventStream.host) start poured).getD start

end Teapot

open Teapot in
/-- A step lets the message pass, and the next one produces what cannot be sent. -/
theorem unsendable_meta_stays_out_poured :
    Actions.run (chainStep (fun _ ↦ none) EventStream.host) start poured = some reached ∧
      reached.KeepsOut inbound.entries ∧ ∃ t text entries,
      Actions.run (chainStep (fun _ ↦ none) EventStream.host) reached
        [.work [] moment, .advance] = some t ∧
      t.phase = .finished (.ofEvents [.error ⟨.internal, text, entries⟩]) := by
  have htrace : reached.trace = [⟨.check, .ok⟩, ⟨.check, .ok⟩, ⟨.charge, true⟩,
      ⟨.invoke ⟨"tea", "pour", [], inbound, []⟩, .ok (.ofEvents [.continue inbound])⟩,
      ⟨.check, .ok⟩, ⟨.check, .ok⟩, ⟨.charge, true⟩] := rfl
  have hclosed := unsendable_meta_stays_out (fun _ ↦ none) EventStream.host brewing inbound (.ok [])
    poured reached (fun err herr ↦ nomatch herr) rfl ?_
  · obtain ⟨env, plan, mode, st, hinvoked, hended⟩ := hclosed.2.1 _ _ _ _ _ rfl
    obtain ⟨text, t, ht, hphase⟩ := hended moment
      ⟨teapot, by cases mode <;> exact mem_singleton_self _, by decide⟩
    exact ⟨rfl, hclosed.1, t, text, _, ht, hphase⟩
  · intro call reply hmem
    rw [htrace] at hmem
    simp only [mem_cons, Sigma.mk.injEq, reduceCtorEq, false_and, false_or, not_mem_nil,
      or_false, Effect.invoke.injEq] at hmem
    obtain ⟨rfl, hreply⟩ := hmem
    rw [eq_of_heq hreply]
    exact fun ev hev ↦ absurd hev not_mem_nil

namespace Teapot

def forked : CompiledFlow :=
  flowOf [.mk (step "join") (some [[.mk (step "stop") none], [.mk (step "brew") none]])]

def bothBranches : List ChainAct :=
  .enter 0 :: work [] 2 ++ work [0] 4 ++ work [1] 4 ++ work [] 1 ++ [.advance]

def putBack : OutputStream :=
  ⟨[.metadata ⟨metaRespStream, streamMarkerValue⟩, .chunk [1], .error ⟨.internal, "", [teapot]⟩],
    some, []⟩

def trailing : OutputStream :=
  .ofEvents [.metadata ⟨metaRespStream, streamMarkerValue⟩, .chunk [1], .complete [teapot]]

def answered (output : OutputStream) : List ChainAct :=
  .enter 0 :: List.replicate 4 (.work [] ⟨0, fun _ ↦ .ok output⟩) ++ [.advance]

def single : CompiledFlow := flowOf [.mk (step "brew") none]

end Teapot

open Teapot in
/-- What cannot be sent is answered when the input could not be read, and when the block itself put
it back on its stream. In a fork an earlier branch decides how the flow ends, and behind the head
of a stream what cannot be sent is dropped. -/
theorem unsendable_meta_not_always_refused :
    (¬∀ (wafer : String → Option CompiledFlow) (host : Host) (flow : CompiledFlow) (msg : Message)
      (input : Except WaferError Bytes) (as : List ChainAct) (s : ChainState)
      (output : OutputStream),
      Actions.run (chainStep wafer host) (runPlan flow msg input) as = some s →
      s.phase = .finished output → ∀ ev ∈ output.events, NothingNew msg.entries ev.entries) ∧
    (¬∀ (wafer : String → Option CompiledFlow) (host : Host) (flow : CompiledFlow) (msg : Message)
      (body : Bytes) (as : List ChainAct) (s : ChainState) (output : OutputStream),
      Actions.run (chainStep wafer host) (runPlan flow msg (.ok body)) as = some s →
      s.phase = .finished output → ∀ ev ∈ output.events, NothingNew msg.entries ev.entries) ∧
    (∃ as s call, Actions.run (chainStep (fun _ ↦ none) EventStream.host)
        (runPlan forked inbound (.ok [])) as = some s ∧
      ⟨.invoke call, .ok (.ofEvents [.complete [teapot]])⟩ ∈ s.trace ∧ ¬Sendable teapot ∧
      s.phase = .finished (.ofEvents [.halt [] []])) ∧
    (∃ as s call output, Actions.run (chainStep (fun _ ↦ none) EventStream.host)
        (runPlan single inbound (.ok [])) as = some s ∧
      ⟨.invoke call, .ok trailing⟩ ∈ s.trace ∧ .complete [teapot] ∈ trailing.events ∧
      s.phase = .finished output ∧
      output.events =
        [.metadata ⟨metaRespStream, streamMarkerValue⟩, .chunk [1], .complete []]) := by
  refine ⟨fun hclaim ↦ ?_, fun hclaim ↦ ?_, ?_, ?_⟩
  · have h := hclaim (fun _ ↦ none) EventStream.host single inbound
      (.error ⟨.internal, "", [teapot]⟩) [.enter 0] _ _ rfl rfl _ (mem_singleton_self _) teapot
      (mem_singleton_self _) (by decide)
    exact absurd h not_mem_nil
  · have h := hclaim (fun _ ↦ none) EventStream.host single inbound [] (answered putBack) _ _ rfl
      rfl (.error ⟨.internal, "", [teapot]⟩)
      (mem_cons_of_mem _ (mem_cons_of_mem _ mem_cons_self)) teapot
      (mem_singleton_self _) (by decide)
    exact absurd h not_mem_nil
  · exact ⟨bothBranches, _, _, rfl, mem_cons_self, by decide, rfl⟩
  · exact ⟨answered trailing, _, _, _, rfl, mem_cons_self,
      mem_cons_of_mem _ (mem_cons_of_mem _ mem_cons_self), rfl, rfl⟩

end WaferRun
