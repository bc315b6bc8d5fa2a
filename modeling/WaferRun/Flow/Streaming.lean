import WaferRun.Block.HttpResponse
import WaferRun.Block.StreamedBody
import WaferRun.Flow.Chain
import WaferRun.Flow.Overlay

/-!
# Streamed responses of a flow

The terminal step of a flow may answer with a stream, which the flow then forwards instead of
collecting it. Two decisions have to fit together. The executor decides from the metadata the step
itself leads with; the transport decides from the entries of the flow's message, over which that
metadata was laid. And what follows the first chunk must not change what the collected response of
the same step would have been.

The first decision can be lost on the way. A content type lives under several keys, an overlay sets
each key where it stands, and the transport reads the entry that stands last. `StreamingSurvives`
says when the last entry still declares what the step declared.
-/

open List

namespace WaferRun

open Text

/-! ## The answer of a terminal step -/

def answerOf (host : Host) : StepResult → OutputStream
  | .error (stop, st) => stop.intoOutput host st
  | .ok st => respondWithMeta st.body (responseMetaOf st.msg)

/-- How a step without fan-out ends, given the reply of its block. -/
def afterReply (env : StepEnv) (step : StepPlan) (mode : ResponseMode) (st : ExecState)
    (reply : Reply) : StepResult :=
  match applyReply env step mode st reply with
  | .error stop => .error stop
  | .ok (st, outcome) =>
    .ok (if step.input.isSome then
      { st with acc := st.acc.set step.id (outputValue env st outcome) } else st)

theorem runBlock_eq_afterReply (env : StepEnv) {step : StepPlan} (h : step.each = none)
    (mode : ResponseMode) (st : ExecState) :
    runBlock env step mode st (fun st ↦ .done (.ok st)) =
      checkCancelDeadline env st (match resolveInput env step st with
        | .error err => fail st (.error err)
        | .ok st =>
          match step.target with
          | none => failWith st .unimplemented (stepLabel step ++ " is not registered")
          | some target =>
            .perform (.invoke ⟨env.flow.id, target, step.config, st.msg, st.body⟩) fun reply ↦
              .done (afterReply env step mode st reply)) := by
  have hreply (st : ExecState) (reply : Reply) :
      (match applyReply env step mode st reply with
        | .error stop => (.done (.error stop) : Run)
        | .ok (st, outcome) =>
          if step.input.isSome then
            .done (.ok { st with acc := st.acc.set step.id (outputValue env st outcome) })
          else .done (.ok st)) = .done (afterReply env step mode st reply) := by
    unfold afterReply
    split
    · rfl
    · split_ifs <;> rfl
  unfold runBlock runInvocation
  simp only [h]
  refine congrArg (checkCancelDeadline env st) ?_
  rcases resolveInput env step st with err | st
  · rfl
  · rcases step.target with _ | target
    · rfl
    · exact congrArg (Strand.perform _) (funext fun reply ↦ hreply st reply)

/-! ## Reading the output of a terminal step -/

theorem eq_collectBuffered_of_readOutput {mode : ResponseMode} {output : OutputStream}
    {result : Except TerminalNotResponse BufferedResponse}
    (h : readOutput mode output = .collected result) : result = collectBuffered output := by
  have hevents : ((output.takeLeadingMeta.2.peek.2).prepend
      (output.takeLeadingMeta.1.map .metadata)).events = output.events := by
    rw [OutputStream.events_prepend, (OutputStream.events_peek _).1,
      OutputStream.events_takeLeadingMeta]
  cases mode with
  | collect =>
    cases h
    rfl
  | forwardStream =>
    simp only [readOutput, openTerminalOutput] at h
    split_ifs at h
    cases h
    rw [collectBuffered, hevents, collectBuffered]

structure Forwarded (output : OutputStream) (top : List MetaEntry) (rest : OutputStream) : Prop where
  declares : declaresStreaming top = true
  prelude : ∃ bytes later, rest.prelude = .chunk bytes :: later ∧
    (output.prelude = [] → later = [])
  events : top.map .metadata ++ rest.events = output.events

theorem splitMeta_of_forall_isMeta {pre : List StreamEvent} (h : ∀ e ∈ pre, e.isMeta = true)
    (es : List StreamEvent) :
    (OutputStream.splitMeta (pre ++ es)).2 = (OutputStream.splitMeta es).2 := by
  induction pre with
  | nil => rfl
  | cons e pre ih =>
    obtain ⟨he, hpre⟩ := forall_mem_cons.mp h
    match e, he with
    | .metadata entry, _ => exact ih hpre

theorem splitMeta_readAhead {rewrite : StreamEvent → Option StreamEvent} {pre es : List StreamEvent}
    (h : ∀ e ∈ pre, e.isMeta = true) :
    (OutputStream.splitMeta (OutputStream.readAhead rewrite pre es).1).2.length ≤ 1 := by
  fun_induction OutputStream.readAhead rewrite pre es with
  | case1 pre =>
    have := splitMeta_of_forall_isMeta h []
    rw [append_nil] at this
    rw [this]
    exact Nat.zero_le 1
  | case2 pre e es he ih => exact ih h
  | case3 pre e es e' he hm ih =>
    refine ih fun x hx ↦ ?_
    rcases mem_append.mp hx with hx | hx
    · exact h x hx
    · exact mem_singleton.mp hx ▸ hm
  | case4 pre e es e' he hm =>
    rw [splitMeta_of_forall_isMeta h]
    cases e' with
    | metadata _ => exact absurd rfl hm
    | chunk _ | complete _ | error _ | drop _ | halt _ _ | «continue» _ => exact Nat.le_refl 1

theorem length_prelude_takeLeadingMeta {o : OutputStream} (h : o.prelude = []) :
    o.takeLeadingMeta.2.prelude.length ≤ 1 := by
  rw [OutputStream.takeLeadingMeta, h]
  exact splitMeta_readAhead (by simp)

theorem prelude_peek {o : OutputStream} {e : StreamEvent} (h : o.peek.1 = some e) :
    o.peek.2.prelude = e :: o.prelude.tail := by
  unfold OutputStream.peek OutputStream.next at h ⊢
  rcases hp : o.prelude with _ | ⟨first, later⟩
  · simp only [hp] at h ⊢
    cases hn : OutputStream.nextProduced o.rewrite o.produced with
    | none => simp [hn] at h
    | some pair =>
      simp only [hn, Option.map_some, Option.some.injEq] at h
      subst h
      simp [OutputStream.prepend]
  · simp only [hp, Option.some.injEq] at h ⊢
    rw [← h]
    rfl

theorem forwarded_of_readOutput {output rest : OutputStream} {top : List MetaEntry}
    (h : readOutput .forwardStream output = .streaming top rest) : Forwarded output top rest := by
  simp only [readOutput, openTerminalOutput] at h
  split_ifs at h with hd
  cases h
  obtain ⟨hdecl, hchunk⟩ := Bool.and_eq_true_iff.mp hd
  refine ⟨hdecl, ?_, ?_⟩
  · obtain ⟨first, hfirst, hisChunk⟩ := (Option.any_eq_true _ _).mp hchunk
    match first, hisChunk with
    | .chunk bytes, _ =>
      refine ⟨bytes, _, prelude_peek hfirst, fun hunread ↦ eq_nil_of_length_eq_zero ?_⟩
      have := length_prelude_takeLeadingMeta hunread
      rw [length_tail]
      omega
  · rw [(OutputStream.events_peek _).1, OutputStream.events_takeLeadingMeta]

/-! ## After the head -/

theorem firstUnsendable_eq_none_iff {entries : List MetaEntry} :
    firstUnsendable entries = none ↔ ∀ e ∈ entries, Sendable e := by
  rw [firstUnsendable, List.findSome?_eq_none_iff]
  refine forall₂_congr fun e _ ↦ ?_
  rw [Sendable]
  cases classifyResponseMeta e <;> simp

section

variable {host : Host} {own : List MetaEntry} {label : String}

theorem endsComplete_filterMap_afterHead (es : List StreamEvent) :
    endsComplete (es.filterMap (afterHead host own label)) = endsComplete es := by
  induction es with
  | nil => rfl
  | cons e es ih =>
    match e with
    | .chunk bytes | .metadata entry => exact ih
    | .complete entries => rfl
    | .error err | .drop entries | .halt body entries | .continue msg => rfl

theorem endsComplete_append_afterHead (pre es : List StreamEvent) :
    endsComplete (pre ++ es.filterMap (afterHead host own label)) = endsComplete (pre ++ es) := by
  induction pre with
  | nil => exact endsComplete_filterMap_afterHead es
  | cons e pre ih =>
    match e with
    | .chunk bytes | .metadata entry => exact ih
    | .complete entries | .error err | .drop entries | .halt body entries | .continue msg => rfl

theorem chunks_afterHead {pre es tail : List StreamEvent} {chunks : List Bytes}
    (h : pre ++ es = chunks.map .chunk ++ .complete [] :: tail) :
    ∃ tail', pre ++ es.filterMap (afterHead host own label) =
      chunks.map .chunk ++ .complete [] :: tail' := by
  induction pre generalizing chunks with
  | nil =>
    have hpass : (chunks.map StreamEvent.chunk).filterMap (afterHead host own label) =
        chunks.map .chunk := by
      rw [filterMap_map]
      exact filterMap_eq_map.symm ▸ rfl
    rw [nil_append] at h
    exact ⟨tail.filterMap (afterHead host own label), by
      rw [h, nil_append, filterMap_append, hpass]
      rfl⟩
  | cons e pre ih =>
    rcases chunks with _ | ⟨bytes, chunks⟩
    · obtain ⟨rfl, -⟩ := cons.inj h
      exact ⟨pre ++ es.filterMap (afterHead host own label), rfl⟩
    · obtain ⟨rfl, hrest⟩ := cons.inj h
      obtain ⟨tail', htail⟩ := ih hrest
      exact ⟨tail', congrArg (List.cons _) htail⟩

theorem entries_of_collectFrom_afterHead {body : Bytes} {entries : List MetaEntry} {any : Bool}
    {es : List StreamEvent} {response : BufferedResponse}
    (h : collectFrom body entries any (es.filterMap (afterHead host own label)) = .ok response) :
    response.entries = entries := by
  induction es generalizing body any with
  | nil => cases h
  | cons e es ih =>
    match e with
    | .chunk bytes => exact ih h
    | .metadata entry => exact ih h
    | .complete trailing =>
      cases h
      exact append_nil entries
    | .error err | .drop _ | .halt _ _ | .continue _ => cases h

end

theorem endsComplete_of_collectFrom {body : Bytes} {entries : List MetaEntry} {any : Bool}
    {es : List StreamEvent} {response : BufferedResponse}
    (h : collectFrom body entries any es = .ok response) : endsComplete es = true := by
  fun_induction collectFrom body entries any es with
  | case2 body entries any bytes es ih => exact ih h
  | case3 body entries any entry es ih => exact ih h
  | case4 => rfl
  | _ => cases h

theorem collectFrom_head (body : Bytes) (entries own : List MetaEntry) (any : Bool)
    (bytes : Bytes) (es : List StreamEvent) :
    collectFrom body entries any (own.map .metadata ++ .chunk bytes :: es) =
      collectFrom (body ++ bytes) (entries ++ own) true es := by
  induction own generalizing entries any with
  | nil => rw [append_nil]; rfl
  | cons e own ih =>
    rw [map_cons, cons_append, collectFrom, ih, append_assoc, singleton_append]

theorem collectFrom_chunks (body : Bytes) (entries : List MetaEntry) (any : Bool)
    (chunks : List Bytes) (tail : List StreamEvent) :
    collectFrom body entries any (chunks.map .chunk ++ .complete [] :: tail) =
      .ok ⟨body ++ chunks.flatten, entries⟩ := by
  induction chunks generalizing body any with
  | nil => simp [collectFrom]
  | cons bytes chunks ih =>
    rw [map_cons, cons_append, collectFrom, ih, append_assoc, flatten_cons]

theorem collectBuffered_eq {o : OutputStream} {entries : List MetaEntry} {chunks : List Bytes}
    {tail : List StreamEvent} (hne : chunks ≠ [])
    (h : o.events = entries.map .metadata ++ (chunks.map .chunk ++ .complete [] :: tail)) :
    collectBuffered o = .ok ⟨chunks.flatten, entries⟩ := by
  obtain ⟨bytes, rest, rfl⟩ := exists_cons_of_ne_nil hne
  rw [collectBuffered, h, map_cons, cons_append, collectFrom_head, collectFrom_chunks]
  rfl

theorem collectBuffered_respondWithMeta (body : Bytes) (entries : List MetaEntry) :
    collectBuffered (respondWithMeta body entries) = .ok ⟨body, entries⟩ := by
  unfold respondWithMeta collectBuffered OutputStream.ofEvents OutputStream.events
  rw [nil_append, filterMap_some]
  split_ifs with hb
  · rw [hb]
    rfl
  · rfl

theorem leading_unique {own own' : List MetaEntry} {bytes bytes' : Bytes} {es es' : List StreamEvent}
    (h : own.map .metadata ++ .chunk bytes :: es = own'.map .metadata ++ .chunk bytes' :: es') :
    own = own' ∧ StreamEvent.chunk bytes :: es = .chunk bytes' :: es' := by
  induction own generalizing own' with
  | nil =>
    rcases own' with _ | ⟨e', own'⟩
    · exact ⟨rfl, h⟩
    · cases h
  | cons e own ih =>
    rcases own' with _ | ⟨e', own'⟩
    · cases h
    · simp only [map_cons, cons_append, List.cons.injEq,
        StreamEvent.metadata.injEq] at h
      obtain ⟨rfl, hrest⟩ := h
      obtain ⟨rfl, hes⟩ := ih hrest
      exact ⟨rfl, hes⟩

/-! ## The stream that is forwarded -/

def forwardedStream (host : Host) (st : ExecState) (step : StepPlan) (rest : OutputStream) :
    OutputStream :=
  (ShortCircuit.stream rest (stepLabel step)).intoOutput host st

theorem answerOf_forwarded {env : StepEnv} {step : StepPlan} {st : ExecState}
    {output rest : OutputStream} {top : List MetaEntry}
    (h : readOutput .forwardStream output = .streaming top rest) (hs : ∀ e ∈ top, Sendable e) :
    answerOf env.host (afterReply env step .forwardStream st (.ok output)) =
      forwardedStream env.host (layOver st top) step rest := by
  simp only [afterReply, applyReply, h, forwardStream, firstUnsendable_eq_none_iff.mpr hs, answerOf,
    forwardedStream]

theorem splitMeta_map_metadata (own : List MetaEntry) (es : List StreamEvent) :
    OutputStream.splitMeta (own.map .metadata ++ es) =
      (own ++ (OutputStream.splitMeta es).1, (OutputStream.splitMeta es).2) := by
  induction own with
  | nil => rfl
  | cons e own ih => rw [map_cons, cons_append, OutputStream.splitMeta, ih]; rfl

section

variable {host : Host} {st : ExecState} {step : StepPlan} {output rest : OutputStream}
  {top : List MetaEntry}

theorem takeLeadingMeta_forwardedStream (h : Forwarded output top rest) :
    (forwardedStream host st step rest).takeLeadingMeta =
      (responseMetaOf st.msg, rest.rewriteProduced
        (afterHead host (carried ⟨st.responderRecord, st.msg.entries⟩) (stepLabel step))) := by
  obtain ⟨bytes, later, hp, -⟩ := h.prelude
  unfold forwardedStream ShortCircuit.intoOutput OutputStream.takeLeadingMeta
  simp only [OutputStream.prepend, OutputStream.rewriteProduced, hp]
  have hany : (((responseMetaOf st.msg).map StreamEvent.metadata ++ .chunk bytes :: later).any
      fun e ↦ !e.isMeta) = true :=
    any_eq_true.mpr ⟨.chunk bytes, by simp, rfl⟩
  rw [if_pos hany, splitMeta_map_metadata]
  simp [OutputStream.splitMeta]

theorem events_forwardedStream :
    (forwardedStream host st step rest).events =
      (responseMetaOf st.msg).map .metadata ++ (rest.prelude ++
        (rest.produced.filterMap rest.rewrite).filterMap
          (afterHead host (carried ⟨st.responderRecord, st.msg.entries⟩) (stepLabel step))) := by
  unfold forwardedStream ShortCircuit.intoOutput
  rw [OutputStream.events_prepend, filterMap_filterMap]
  rfl

theorem endsComplete_forwardedStream (h : Forwarded output top rest) :
    endsComplete (forwardedStream host st step rest).events = endsComplete output.events := by
  rw [events_forwardedStream, ← h.events, endsComplete_map_metadata, endsComplete_map_metadata,
    endsComplete_append_afterHead, OutputStream.events]

end

/-! ## A streamed response is the collected one -/

theorem noError_itemsFrom_none {es : List StreamEvent} (h : NoError (itemsFrom none none es)) :
    endsComplete es = true := by
  induction es with
  | nil => exact absurd (h _ (mem_singleton.mpr rfl)) (by simp [Except.isOk, Except.toBool])
  | cons e es ih =>
    cases e with
    | chunk bytes => exact ih (forall_mem_cons.mp h).2
    | metadata entry => exact ih h
    | complete entries => rfl
    | error _ | drop _ | halt _ _ | «continue» _ =>
      exact absurd (h _ (mem_singleton.mpr rfl)) (by simp [Except.isOk, Except.toBool])

/-- A transport that was given the whole body, or as many bytes as were declared, was given the body
of a producer that ended with `complete`. -/
theorem endsComplete_of_streamed {o : OutputStream} {r : StreamedHttpResponse}
    (h : openResponse o = .streamed r)
    (hall : NoError r.body.items ∨
      ∃ n k, r.contentLength = some n ∧ (okBytes (r.body.polled k)).length = n) :
    endsComplete o.events = true := by
  cases hn : r.contentLength with
  | none =>
    obtain ⟨es, hbody, -, hes⟩ := openResponse_eq_streamed h
    rw [hn] at hbody hes
    have hitems : r.body.items = itemsFrom none none es := by
      rw [StreamedBody.items_eq_allItems, hbody]
      rfl
    rcases hall with hno | ⟨n, k, hlen, -⟩
    · obtain ⟨rfl, -⟩ | ⟨habs, -⟩ := hes
      · rw [← o.events_takeLeadingMeta, endsComplete_map_metadata]
        exact noError_itemsFrom_none (hitems ▸ hno)
      · cases habs
    · rw [hn] at hlen
      cases hlen
  | some n =>
    obtain ⟨henf, hzero⟩ := streamed_enforced h hn
    rcases henf with ⟨-, hend, -⟩ | ⟨-, ⟨err, hf⟩, -, hlt⟩
    · exact hend
    · rcases hall with hno | ⟨m, k, hm, hk⟩
      · exact absurd hno (not_noError_of_failsWith hf)
      · -- a body that fails stays short of a positive length
        rw [hn] at hm
        cases hm
        rcases Nat.eq_zero_or_pos n with h0 | hpos
        · exact (hzero h0).2
        · have hle : (okBytes (r.body.polled k)).length ≤ (okBytes r.body.items).length := by
            rw [StreamedBody.polled_eq_take_items]
            exact (okBytes_take_isPrefix k _).length_le
          have := hlt hpos
          omega

theorem answerOf_collected {env : StepEnv} {step : StepPlan} {mode : ResponseMode} {st : ExecState}
    {output : OutputStream} {response : BufferedResponse}
    (h : readOutput mode output = .collected (.ok response))
    (hs : ∀ e ∈ response.entries, Sendable e) :
    collectBuffered (answerOf env.host (afterReply env step mode st (.ok output))) =
      .ok ⟨response.body, responseMetaOf (layOver st response.entries).msg⟩ := by
  have hu := firstUnsendable_eq_none_iff.mpr hs
  simp only [afterReply, applyReply, h, applyCollected, producedEntries, hu]
  split_ifs <;> exact collectBuffered_respondWithMeta _ _

theorem answerOf_of_events {env : StepEnv} {step : StepPlan} {mode : ResponseMode} {st : ExecState}
    {output : OutputStream} {own : List MetaEntry} {chunks : List Bytes} {tail : List StreamEvent}
    (hs : ∀ e ∈ own, Sendable e) (hne : chunks ≠ [])
    (h : output.events = own.map .metadata ++ (chunks.map .chunk ++ .complete [] :: tail)) :
    collectBuffered (answerOf env.host (afterReply env step mode st (.ok output))) =
      .ok ⟨chunks.flatten, responseMetaOf (layOver st own).msg⟩ := by
  have hbuf := collectBuffered_eq hne h
  cases hread : readOutput mode output with
  | collected result =>
    have hresult := eq_collectBuffered_of_readOutput hread
    rw [hbuf] at hresult
    exact answerOf_collected (hresult ▸ hread) hs
  | streaming top rest =>
    obtain rfl : mode = .forwardStream := by
      cases mode
      · cases hread
      · rfl
    have hf := forwarded_of_readOutput hread
    obtain ⟨bytes, later, hp, -⟩ := hf.prelude
    obtain ⟨first, rest', rfl⟩ := exists_cons_of_ne_nil hne
    -- the head the executor took is the head of the output
    obtain ⟨rfl, hrest⟩ : top = own ∧
        rest.events = .chunk first :: (rest'.map .chunk ++ .complete [] :: tail) := by
      have hevents := hf.events
      rw [h, OutputStream.events, hp, map_cons, cons_append, cons_append] at hevents
      obtain ⟨hown, hbody⟩ := leading_unique hevents
      refine ⟨hown, ?_⟩
      rw [OutputStream.events, hp]
      exact hbody
    rw [answerOf_forwarded hread hs]
    have hrest' : rest.prelude ++ rest.produced.filterMap rest.rewrite =
        (first :: rest').map .chunk ++ .complete [] :: tail := hrest
    obtain ⟨tail', htail⟩ := @chunks_afterHead env.host
      (carried ⟨(layOver st top).responderRecord, (layOver st top).msg.entries⟩) (stepLabel step)
      _ _ _ _ hrest'
    exact collectBuffered_eq hne (events_forwardedStream.trans (congrArg _ htail))

/-- **A streamed response is the response that would have been collected**, and nothing the producer
does after the first chunk changes its head or makes an unfinished body look complete. -/
theorem streamed_eq_collected (env : StepEnv) (step : StepPlan) (st : ExecState)
    (output : OutputStream) :
    (∀ (own : List MetaEntry) (chunks : List Bytes) (tail : List StreamEvent),
      (∀ e ∈ own, Sendable e) → chunks ≠ [] →
      output.events = own.map .metadata ++ (chunks.map .chunk ++ .complete [] :: tail) →
      ∃ response : BufferedResponse, response.body = chunks.flatten ∧
        collectBuffered (answerOf env.host (afterReply env step .forwardStream st (.ok output))) =
          .ok response ∧
        collectBuffered (answerOf env.host (afterReply env step .collect st (.ok output))) =
          .ok response) ∧
    ∀ top rest, readOutput .forwardStream output = .streaming top rest →
      (∀ e ∈ top, Sendable e) →
      let answer := answerOf env.host (afterReply env step .forwardStream st (.ok output))
      answer.takeLeadingMeta.1 = responseMetaOf (layOver st top).msg ∧
        (∀ response, collectBuffered answer = .ok response →
          endsComplete output.events = true ∧
            (output.prelude = [] → response.entries = answer.takeLeadingMeta.1)) ∧
        ∀ r, openResponse answer = .streamed r →
          (NoError r.body.items ∨
            ∃ n k, r.contentLength = some n ∧ (okBytes (r.body.polled k)).length = n) →
          endsComplete output.events = true := by
  refine ⟨fun own chunks tail hs hne h ↦ ?_, fun top rest hread hs ↦ ?_⟩
  · exact ⟨_, rfl, answerOf_of_events hs hne h, answerOf_of_events hs hne h⟩
  · have hf := forwarded_of_readOutput hread
    rw [answerOf_forwarded hread hs]
    dsimp only
    have hlead := @takeLeadingMeta_forwardedStream env.host (layOver st top) step _ _ _ hf
    have hend := @endsComplete_forwardedStream env.host (layOver st top) step _ _ _ hf
    refine ⟨by rw [hlead], fun response hr ↦ ⟨?_, fun hunread ↦ ?_⟩, fun r hr hall ↦ ?_⟩
    · rw [← hend]
      exact endsComplete_of_collectFrom hr
    · obtain ⟨bytes, later, hp, hlater⟩ := hf.prelude
      rw [hlead]
      rw [collectBuffered, events_forwardedStream, hp, hlater hunread, singleton_append,
        collectFrom_head, nil_append] at hr
      exact entries_of_collectFrom_afterHead hr
    · rw [← hend]
      exact endsComplete_of_streamed hr hall

/-! ## The two streaming decisions -/

theorem responseMetaParts_ok {entries : List MetaEntry} (h : ∀ e ∈ entries, Sendable e) :
    ∃ parts, responseMetaParts entries = .ok parts := by
  induction entries with
  | nil => exact ⟨[], rfl⟩
  | cons e es ih =>
    obtain ⟨he, hes⟩ := forall_mem_cons.mp h
    obtain ⟨parts, hparts⟩ := ih hes
    rw [responseMetaParts]
    split
    · exact ⟨_, by rw [hparts]; rfl⟩
    · rename_i invalid hi
      have hkind : invalid.kind = .transportOwned := by
        have := he invalid hi
        cases hk : invalid.kind <;> simp_all
      exact ⟨parts, by rw [if_pos hkind, hparts]⟩

theorem headersFromMeta_ok_iff {entries : List MetaEntry} :
    (∃ headers, headersFromMeta entries = .ok headers) ↔ ∀ e ∈ entries, Sendable e := by
  constructor
  · rintro ⟨headers, hh⟩
    by_contra hbad
    push Not at hbad
    obtain ⟨invalid, hi⟩ := responseMetaParts_eq_error hbad
    rw [headersFromMeta, hi] at hh
    cases hh
  · intro h
    obtain ⟨parts, hparts⟩ := responseMetaParts_ok h
    exact ⟨_, by rw [headersFromMeta, hparts]; rfl⟩

def LengthRefused (o : OutputStream) : Prop :=
  declaresStreaming o.takeLeadingMeta.1 = true ∧
    o.takeLeadingMeta.2.peek.1.any StreamEvent.isChunk = true ∧
    (∃ headers, headersFromMeta o.takeLeadingMeta.1 = .ok headers) ∧
    match contentLength o.takeLeadingMeta.1 with
    | .error _ => True
    | .ok none => False
    | .ok (some declared) =>
      (checkDeclaredLength declared o.takeLeadingMeta.2.peek.2.events).1 ≠ .fits

def AnsweredStreamed (o : OutputStream) : Prop :=
  (∃ r, openResponse o = .streamed r) ∨ LengthRefused o

theorem answeredStreamed_iff {o : OutputStream} :
    AnsweredStreamed o ↔ declaresStreaming o.takeLeadingMeta.1 = true ∧
      o.takeLeadingMeta.2.peek.1.any StreamEvent.isChunk = true ∧
      ∃ headers, headersFromMeta o.takeLeadingMeta.1 = .ok headers := by
  unfold AnsweredStreamed LengthRefused openResponse
  generalize o.takeLeadingMeta = lead
  obtain ⟨entries, rest⟩ := lead
  dsimp only
  generalize rest.peek = peeked
  obtain ⟨first, rest'⟩ := peeked
  dsimp only
  constructor
  · rintro (⟨r, hr⟩ | ⟨hd, hc, hh, -⟩)
    · split_ifs at hr with hskip
      simp only [Bool.or_eq_true, Bool.not_eq_true', not_or, Bool.not_eq_false] at hskip
      refine ⟨hskip.1, hskip.2, ?_⟩
      cases hh : headersFromMeta entries with
      | error invalid => simp [hh] at hr
      | ok headers => exact ⟨headers, rfl⟩
    · exact ⟨hd, hc, hh⟩
  · rintro ⟨hd, hc, headers, hh⟩
    simp only [hd, hc, hh, Bool.not_true, Bool.or_self, Bool.false_eq_true, if_false]
    cases hl : contentLength entries with
    | error invalid => exact .inr ⟨trivial, trivial, ⟨headers, rfl⟩, trivial⟩
    | ok declared =>
      cases declared with
      | none => exact .inl ⟨_, rfl⟩
      | some n =>
        dsimp only
        rcases hfit : checkDeclaredLength n rest'.events with ⟨_ | invalid | _, events⟩
        · exact .inl ⟨_, rfl⟩
        · exact .inr ⟨trivial, trivial, ⟨headers, rfl⟩, by simp⟩
        · exact .inr ⟨trivial, trivial, ⟨headers, rfl⟩, by simp⟩

/-! ## Content types and the stream marker -/

theorem leadingContentType_eq (entries : List MetaEntry) :
    leadingContentType entries =
      ((entries.filter isContentTypeEntry).getLast?).map MetaEntry.value := by
  rw [leadingContentType, ← List.head?_filter, filter_reverse, List.head?_reverse]

def isContentTypeKey (key : String) : Bool := isContentTypeEntry ⟨key, ""⟩

theorem keyKind_of_isContentTypeKey {key : String} (h : isContentTypeKey key = true) :
    keyKind key = .other := by
  have hempty : isFieldValue "".toList = true := by decide
  have hstatus : (parseU16 "".toList).filter (fun code ↦ 100 ≤ code ∧ code ≤ 999) = none := by
    decide
  simp only [isContentTypeKey, isContentTypeEntry, Bool.or_eq_true, decide_eq_true_eq,
    Bool.and_eq_true, isPrefixOf_iff_prefix] at h
  rcases h with rfl | ⟨hpre, hname⟩
  · decide
  · have hcookie : ¬metaRespCookiePrefix.toList <+: key.toList := by
      intro hc
      have := prefix_of_prefix_length_le hpre hc (by decide)
      revert this
      decide
    unfold keyKind kind classifyResponseMeta
    simp only [hempty, hcookie, hpre, hname, hstatus, if_true, if_false]
    split_ifs <;> rfl

theorem filter_responseMetaOf {p : MetaEntry → Bool} (msg : Message)
    (h : ∀ e, p e = true → "resp.".toList <+: e.key.toList) :
    (responseMetaOf msg).filter p = msg.entries.filter p := by
  rw [responseMetaOf, filter_filter]
  refine filter_congr fun e _ ↦ ?_
  cases hp : p e with
  | false => rfl
  | true => simpa using h e hp

theorem metaGet_eq (entries : List MetaEntry) (key : String) :
    metaGet entries key = ((entries.filter fun e ↦ e.key = key).head?).map MetaEntry.value := by
  rw [metaGet, List.head?_filter]

theorem resp_of_isContentTypeEntry {e : MetaEntry} (h : isContentTypeEntry e = true) :
    "resp.".toList <+: e.key.toList := by
  simp only [isContentTypeEntry, Bool.or_eq_true, decide_eq_true_eq, Bool.and_eq_true,
    isPrefixOf_iff_prefix] at h
  rcases h with h | ⟨hpre, -⟩
  · rw [h]
    decide
  · refine List.IsPrefix.trans ?_ hpre
    decide

theorem sendable_of_mem_bodyHints {e : MetaEntry} (h : e.key ∈ bodyHints) : Sendable e := by
  simp only [bodyHints, mem_cons, not_mem_nil, or_false] at h
  apply sendable_of_key <;> rcases h with h | h <;> rw [h] <;> decide

theorem resp_of_not_sendable {e : MetaEntry} (h : ¬Sendable e) :
    "resp.".toList <+: e.key.toList := by
  by_contra hresp
  refine h (sendable_of_key (fun hk ↦ hresp ?_) (fun hk ↦ hresp ?_) (fun hp ↦ hresp ?_)
    fun hp ↦ hresp ?_)
  · rw [hk]
    decide
  · rw [hk]
    decide
  · exact List.IsPrefix.trans (by decide) hp
  · exact List.IsPrefix.trans (by decide) hp

theorem layOver_entries (st : ExecState) (top : List MetaEntry) :
    (layOver st top).msg.entries =
      (overlay (st.msg.entries.filter fun e ↦ e.key ∉ bodyHints) top).1 := rfl

/-- The step's declaration survives being laid over the message: the marker it sets last is a
marker, or the content type that stands last is a streaming one; and no entry that stays on the
message cannot be sent. -/
def StreamingSurvives (msg top : List MetaEntry) : Prop :=
  (lastValue top metaRespStream = some streamMarkerValue ∨
    (standsLast (msg.filter isContentTypeEntry) (top.filter isContentTypeEntry)).any
      isStreamingContentType = true) ∧
    ∀ key, ∀ e ∈ staying msg top key, Sendable e

theorem leadingContentType_layOver (st : ExecState) (top : List MetaEntry) :
    leadingContentType (responseMetaOf (layOver st top).msg) =
      standsLast (st.msg.entries.filter isContentTypeEntry) (top.filter isContentTypeEntry) := by
  have hbase : (st.msg.entries.filter fun e ↦ e.key ∉ bodyHints).filter
      (fun e ↦ isContentTypeKey e.key) = st.msg.entries.filter isContentTypeEntry := by
    rw [filter_filter]
    refine filter_congr fun e _ ↦ ?_
    change (isContentTypeEntry e && _) = isContentTypeEntry e
    cases he : isContentTypeEntry e with
    | false => rfl
    | true =>
      have hne : e.key ∉ bodyHints := by
        intro hmem
        have hck : isContentTypeKey e.key = true := he
        simp only [bodyHints, mem_cons, not_mem_nil, or_false] at hmem
        rcases hmem with hmem | hmem <;> rw [hmem] at hck <;> revert hck <;> decide
      simp [hne]
  have hmerged : (layOver st top).msg.entries.filter isContentTypeEntry =
      setByKeys (st.msg.entries.filter isContentTypeEntry) (top.filter isContentTypeEntry) := by
    rw [layOver_entries, ← hbase]
    exact filter_overlay (fun k ↦ keyKind_of_isContentTypeKey) _ top
  rw [leadingContentType_eq, filter_responseMetaOf _ fun e ↦ resp_of_isContentTypeEntry, hmerged,
    getLast?_setByKeys]

theorem metaGet_stream_layOver (st : ExecState) (top : List MetaEntry) :
    metaGet (responseMetaOf (layOver st top).msg) metaRespStream = lastValue top metaRespStream := by
  have hresp : ∀ e : MetaEntry, (decide (e.key = metaRespStream) : Bool) = true →
      "resp.".toList <+: e.key.toList := by
    intro e he
    rw [of_decide_eq_true he]
    decide
  have hnone : (st.msg.entries.filter fun e ↦ e.key ∉ bodyHints).filter
      (fun e ↦ e.key = metaRespStream) = [] := by
    refine filter_eq_nil_iff.mpr fun e he hk ↦ ?_
    have hnot := (mem_filter.mp he).2
    rw [of_decide_eq_true hk] at hnot
    revert hnot
    decide
  rw [metaGet_eq, filter_responseMetaOf _ hresp, layOver_entries,
    filter_key_overlay (keyKind_bodyHints (by decide)), hnone, lastValue]
  cases (top.filter fun e ↦ e.key = metaRespStream).getLast? <;> rfl

theorem forall_sendable_layOver_iff (st : ExecState) {top : List MetaEntry}
    (ht : ∀ e ∈ top, Sendable e) :
    (∀ e ∈ responseMetaOf (layOver st top).msg, Sendable e) ↔
      ∀ key, ∀ e ∈ staying st.msg.entries top key, Sendable e := by
  have hresp : (∀ e ∈ responseMetaOf (layOver st top).msg, Sendable e) ↔
      ∀ e ∈ (layOver st top).msg.entries, Sendable e := by
    constructor
    · intro h e he
      by_contra hs
      exact hs (h e (mem_filter.mpr ⟨he, by simpa using resp_of_not_sendable hs⟩))
    · exact fun h e he ↦ h e (mem_filter.mp he).1
  rw [hresp, layOver_entries, forall_sendable_overlay_iff ht]
  refine forall_congr' fun key ↦ ?_
  by_cases hk : key ∈ bodyHints
  · -- the hints are no part of the response and can always stay
    have hsend (base : List MetaEntry) : ∀ e ∈ staying base top key, Sendable e := by
      intro e he
      have hmem : e ∈ base.filter fun e ↦ e.key = key := by
        unfold staying at he
        dsimp only at he
        split_ifs at he
        · exact mem_of_mem_tail he
        · exact he
      have hkey : e.key = key := by simpa using (mem_filter.mp hmem).2
      exact sendable_of_mem_bodyHints (hkey ▸ hk)
    exact ⟨fun _ ↦ hsend _, fun _ ↦ hsend _⟩
  · have hsame : (st.msg.entries.filter fun e ↦ e.key ∉ bodyHints).filter (fun e ↦ e.key = key) =
        st.msg.entries.filter fun e ↦ e.key = key := by
      rw [filter_filter]
      refine filter_congr fun e _ ↦ ?_
      by_cases he : e.key = key
      · simp [he, hk]
      · simp [he]
    rw [staying, staying, hsame]

/-- **When a forwarded stream is answered as a stream**: exactly when the declaration survives. -/
theorem forwarded_answeredStreamed_iff (env : StepEnv) (step : StepPlan) (st : ExecState)
    (output rest : OutputStream) (top : List MetaEntry)
    (h : readOutput .forwardStream output = .streaming top rest) (hs : ∀ e ∈ top, Sendable e) :
    AnsweredStreamed (answerOf env.host (afterReply env step .forwardStream st (.ok output))) ↔
      StreamingSurvives st.msg.entries top := by
  have hf := forwarded_of_readOutput h
  obtain ⟨bytes, later, hp, -⟩ := hf.prelude
  have hlead := @takeLeadingMeta_forwardedStream env.host (layOver st top) step _ _ _ hf
  rw [answerOf_forwarded h hs, answeredStreamed_iff, hlead]
  have hchunk : (rest.rewriteProduced (afterHead env.host
      (carried ⟨(layOver st top).responderRecord, (layOver st top).msg.entries⟩)
      (stepLabel step))).peek.1.any StreamEvent.isChunk = true := by
    simp only [OutputStream.peek, OutputStream.next, OutputStream.rewriteProduced, hp]
    rfl
  simp only [hchunk, true_and, headersFromMeta_ok_iff, forall_sendable_layOver_iff st hs,
    declaresStreaming, hasStreamMarker, metaGet_stream_layOver, leadingContentType_layOver,
    Bool.or_eq_true, decide_eq_true_eq, StreamingSurvives]

/-! ### A page overtaken by an event stream

Two earlier steps have named the content type of a page, each under its own key. The last step
answers with an event stream and names the content type under the first of these keys. -/

namespace EventStream

def host : Host where
  fromSlice _ := none
  toVec _ := .ok []
  display _ := ""
  debug s := s

def step : StepPlan := ⟨"events", "org/events", some "org/events", none, [], none, none⟩

def env : StepEnv := ⟨⟨"page", none, 10, .stop, false, [.mk step none]⟩, host, 10⟩

def page : List MetaEntry :=
  [⟨metaRespContentType, "text/html"⟩, ⟨"resp.header.Content-Type", "text/html"⟩]

def stateOf (entries : List MetaEntry) : ExecState :=
  ⟨.new, [], ⟨"http.request", entries⟩, fun _ ↦ none⟩

def top : List MetaEntry := [⟨metaRespContentType, "text/event-stream"⟩]

def output : OutputStream := .ofEvents (top.map .metadata ++ [.chunk [1], .complete []])

def rest : OutputStream := ⟨[.chunk [1]], some, [.complete []]⟩

theorem readOutput_output : readOutput .forwardStream output = .streaming top rest := rfl

theorem sendable_top : ∀ e ∈ top, Sendable e := by decide

end EventStream

open EventStream in
/-- On a message without a content type the event stream is answered as one. -/
theorem forwarded_answeredStreamed_iff_events :
    AnsweredStreamed (answerOf host (afterReply env step .forwardStream (stateOf []) (.ok output))) :=
  (forwarded_answeredStreamed_iff env step (stateOf []) output rest top readOutput_output
    sendable_top).mpr ⟨.inr (by decide), fun key e he ↦ by simp [staying, stateOf] at he⟩

open EventStream in
/-- On the message of the page the transport collects the event stream. -/
theorem eventStream_collected :
    ¬∀ (env : StepEnv) (step : StepPlan) (st : ExecState) (output rest : OutputStream)
      (top : List MetaEntry), readOutput .forwardStream output = .streaming top rest →
        (∀ e ∈ top, Sendable e) →
        AnsweredStreamed
          (answerOf env.host (afterReply env step .forwardStream st (.ok output))) := by
  intro hclaim
  have h := hclaim env step (stateOf page) output rest top readOutput_output sendable_top
  have hno : declaresStreaming (answerOf env.host
      (afterReply env step .forwardStream (stateOf page) (.ok output))).takeLeadingMeta.1 = false :=
    rfl
  rw [answeredStreamed_iff, hno] at h
  exact absurd h.1 (by decide)

open EventStream in
/-- The event stream collects to its one chunk. -/
theorem streamed_eq_collected_events :
    ∃ response : BufferedResponse, response.body = [1] ∧
      collectBuffered (answerOf host (afterReply env step .forwardStream (stateOf page) (.ok output))) =
        .ok response ∧
      collectBuffered (answerOf host (afterReply env step .collect (stateOf page) (.ok output))) =
        .ok response :=
  (streamed_eq_collected env step (stateOf page) output).1 top [[1]] [] sendable_top (by decide) rfl

end WaferRun
