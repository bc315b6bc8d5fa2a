import WaferRun.Block.StreamedBody
import WaferRun.Lib.Actions
import WaferRun.Lib.Channel

/-!
# The producer's end of a stream

A producer sends chunks and metadata through its sink, and ends the stream with one terminal. Sends
wait while the channel is full. The terminal does not: a slot is reserved for it when the channel
is made, so that it can be delivered at any time, also by the destructor of a sink that was dropped
without one (`OutputSink.drop`).

Producer, channel and consumer form one system that moves by actions. A run interleaves the calls
of the producer with the reads of the consumer in any order. A call to send is two actions, since
the producer may be dropped, or may drop the send, while the send waits for a slot. The consumer is
there throughout; what a producer is told once it is gone is left out.
-/

open List Option

namespace WaferRun

/-- The producer's handle: whether the slot of the terminal is still reserved, and whether a chunk
or metadata was sent. -/
structure OutputSink where
  terminalPermit : Bool
  anyBodySent : Bool
deriving DecidableEq, Repr

inductive SinkSendError
  | closed
  | bodyAlreadySent (terminal : String)
deriving DecidableEq, Repr

def droppedError (panicking : Bool) : WaferError :=
  .new .internal ("output stream ended without a terminal event: " ++
    if panicking then "the producer panicked"
    else "the producer was cancelled or returned without a terminal")

namespace OutputSink

variable (ch : Channel StreamEvent) (sink : OutputSink) (c : ch.State)

def sendTerminal (event : StreamEvent) : Option (OutputSink × ch.State) :=
  if sink.terminalPermit then
    some ({ sink with terminalPermit := false }, ch.sendReserved c event)
  else none

def endWith (event : StreamEvent) : Option (Except SinkSendError Unit × OutputSink × ch.State) :=
  (sink.sendTerminal ch c event).map fun r ↦ (.ok (), r)

def endUnlessBody (name : String) (event : StreamEvent) :
    Option (Except SinkSendError Unit × OutputSink × ch.State) :=
  if sink.anyBodySent then some (.error (.bodyAlreadySent name), sink, c)
  else sink.endWith ch c event

def complete (entries : List MetaEntry) := sink.endWith ch c (.complete entries)

def error (err : WaferError) := sink.endWith ch c (.error err)

def dropRequestWithMeta (entries : List MetaEntry) :=
  sink.endUnlessBody ch c "Drop" (.drop entries)

def dropRequest := sink.dropRequestWithMeta ch c []

def continueWith (msg : Message) := sink.endUnlessBody ch c "Continue" (.continue msg)

def halt (body : Bytes) (entries : List MetaEntry) :=
  sink.endUnlessBody ch c "Halt" (.halt body entries)

def drop (panicking : Bool) : ch.State :=
  if sink.terminalPermit then ch.sendReserved c (.error (droppedError panicking)) else c

end OutputSink

/-! ## The system -/

inductive TerminalCall
  | complete (entries : List MetaEntry)
  | error (err : WaferError)
  | dropRequest
  | dropRequestWithMeta (entries : List MetaEntry)
  | continueWith (msg : Message)
  | halt (body : Bytes) (entries : List MetaEntry)

namespace TerminalCall

def perform (ch : Channel StreamEvent) (sink : OutputSink) (c : ch.State) :
    TerminalCall → Option (Except SinkSendError Unit × OutputSink × ch.State)
  | complete entries => sink.complete ch c entries
  | error err => sink.error ch c err
  | dropRequest => sink.dropRequest ch c
  | dropRequestWithMeta entries => sink.dropRequestWithMeta ch c entries
  | continueWith msg => sink.continueWith ch c msg
  | halt body entries => sink.halt ch c body entries

def event : TerminalCall → StreamEvent
  | complete entries => .complete entries
  | error err => .error err
  | dropRequest => .drop []
  | dropRequestWithMeta entries => .drop entries
  | continueWith msg => .continue msg
  | halt body entries => .halt body entries

end TerminalCall

/-- A terminal that stands for a whole response, and cannot follow a part of another. -/
def StreamEvent.replacesBody : StreamEvent → Bool
  | drop _ | halt .. | «continue» _ => true
  | _ => false

/-- How a producer lets go of its sink. -/
inductive Ending
  | called (call : TerminalCall)
  | dropped (panicking : Bool)

structure Session (ch : Channel StreamEvent) where
  channel : ch.State
  /-- `none` once the producer has let go of it. -/
  sink : Option OutputSink
  /-- The event whose send waits for a slot. -/
  pending : Option StreamEvent
  received : List StreamEvent
  /-- The events of all sends that were begun, and of those that returned. The code does not keep
  them. -/
  begun : List StreamEvent
  sent : List StreamEvent
  /-- How the producer ended. The code does not keep it. -/
  ending : Option Ending

inductive SinkAct
  | sendChunk (bytes : Bytes)
  | sendMeta (entry : MetaEntry)
  /-- The waiting send is given a slot. -/
  | accept
  /-- The waiting send is dropped, and its producer goes on. -/
  | cancel
  | finish (call : TerminalCall)
  /-- The sink is dropped, with a send that waits. -/
  | dropSink (panicking : Bool)
  /-- The consumer reads an event. -/
  | read

/-- A new channel with `capacity` slots for the body and one that is reserved for the terminal. A
capacity of zero panics. -/
def newStreamingChannel (ch : Channel StreamEvent) (capacity : ℕ) : Option (Session ch) :=
  if 0 < capacity then
    (ch.tryReserve (ch.ofCapacity (capacity + 1))).map fun c ↦
      ⟨c, some ⟨true, false⟩, none, [], [], [], none⟩
  else none

namespace Session

variable {ch : Channel StreamEvent} (s : Session ch)

/-- Begin a send. That a body was sent is noted before the send waits. -/
def begin (event : StreamEvent) : Option (Session ch) :=
  match s.sink, s.pending with
  | some sink, none =>
    some { s with
      sink := some { sink with anyBodySent := true }
      pending := some event
      begun := s.begun ++ [event] }
  | _, _ => none

def letGo (sink : OutputSink) (c : ch.State) (panicking : Bool) (ending : Ending) : Session ch :=
  { s with
    channel := sink.drop ch c panicking
    sink := none
    pending := none
    ending := some ending }

/-- One move of the producer, the channel or the consumer. -/
def step : SinkAct → Option (Session ch)
  | .sendChunk bytes => s.begin (.chunk bytes)
  | .sendMeta entry => s.begin (.metadata entry)
  | .accept =>
    s.pending.bind fun event ↦
      (ch.trySend s.channel event).map fun c ↦
        { s with channel := c, pending := none, sent := s.sent ++ [event] }
  | .cancel => s.pending.map fun _ ↦ { s with pending := none }
  | .finish call =>
    match s.sink, s.pending with
    | some sink, none =>
      (call.perform ch sink s.channel).map fun (_, sink, c) ↦ s.letGo sink c false (.called call)
    | _, _ => none
  | .dropSink panicking =>
    s.sink.map fun sink ↦ s.letGo sink s.channel panicking (.dropped panicking)
  | .read =>
    (ch.recv s.channel).map fun (event, c) ↦
      { s with channel := c, received := s.received ++ [event] }

/-- The consumer has read everything and the channel is closed. -/
def Finished : Prop := s.sink = none ∧ ch.recv s.channel = none

end Session

/-! ## What is delivered -/

def Ending.delivered (anyBodySent : Bool) : Ending → StreamEvent
  | .called call =>
    if anyBodySent ∧ call.event.replacesBody then .error (droppedError false) else call.event
  | .dropped panicking => .error (droppedError panicking)

theorem TerminalCall.drop_perform {ch : Channel StreamEvent} (sent : Bool) (c : ch.State)
    (call : TerminalCall) :
    ∃ r, call.perform ch ⟨true, sent⟩ c = some r ∧
      r.2.1.drop ch r.2.2 false = ch.sendReserved c ((Ending.called call).delivered sent) := by
  cases sent <;> cases call <;> exact ⟨_, rfl, rfl⟩

namespace Session

variable {ch : Channel StreamEvent} {capacity : ℕ} {s t : Session ch}

/-- What holds in every state of a stream. -/
structure Inv (capacity : ℕ) (s : Session ch) : Prop where
  begun_isBody : ∀ event ∈ s.begun, event.isBody
  /-- What is sent is sent in the order of the calls. -/
  sublist : (s.sent ++ s.pending.toList).Sublist s.begun
  /-- The slot of the terminal is reserved for as long as there is a sink. -/
  ready : ∀ sink, s.sink = some sink → sink = ⟨true, !s.begun.isEmpty⟩
  ended_iff : s.ending = none ↔ s.sink ≠ none
  waiting : s.sink = none → s.pending = none
  /-- Nothing is lost between the producer and the consumer, and the terminal is last. -/
  conveyed : s.received ++ ch.queued s.channel =
    s.sent ++ (s.ending.map (Ending.delivered !s.begun.isEmpty)).toList
  room : s.sink ≠ none → ch.free s.channel + (ch.queued s.channel).length = capacity

theorem inv_newStreamingChannel (h : newStreamingChannel ch capacity = some s) : s.Inv capacity := by
  unfold newStreamingChannel at h
  split at h
  · obtain ⟨c, hc, rfl⟩ := map_eq_some_iff.mp h
    have hq : ch.queued c = [] := by rw [ch.queued_tryReserve hc, ch.queued_ofCapacity]
    have hf : ch.free c = capacity := by
      have := ch.free_tryReserve hc
      rw [ch.free_ofCapacity] at this
      omega
    exact ⟨by simp, by simp, by simp, by simp, by simp, by simp [hq], by simp [hq, hf]⟩
  · cases h

theorem Inv.begin (hs : s.Inv capacity) {event : StreamEvent} (he : event.isBody)
    (h : s.begin event = some t) : t.Inv capacity := by
  unfold Session.begin at h
  split at h
  · rename_i sink hsink hpending
    cases h
    have hready := hs.ready sink hsink
    have hending := hs.ended_iff.mpr (by simp [hsink])
    refine ⟨?_, ?_, ?_, ?_, ?_, ?_, ?_⟩
    · intro e hmem
      rcases mem_append.mp hmem with hmem | hmem
      · exact hs.begun_isBody e hmem
      · rw [mem_singleton.mp hmem, he]
    · have := hs.sublist
      rw [hpending, toList_none, append_nil] at this
      exact this.append (List.Sublist.refl _)
    · rintro _ ⟨⟩
      simp [hready]
    · simp [hending]
    · simp
    · have := hs.conveyed
      rw [hending] at this ⊢
      exact this
    · intro _
      exact hs.room (by simp [hsink])
  · cases h

theorem Inv.letGo (hs : s.Inv capacity) {sink : OutputSink} {c : ch.State} {panicking : Bool}
    {ending : Ending} (hsink : s.sink ≠ none)
    (hdrop : sink.drop ch c panicking =
      ch.sendReserved s.channel (ending.delivered !s.begun.isEmpty)) :
    (s.letGo sink c panicking ending).Inv capacity := by
  have hending := hs.ended_iff.mpr hsink
  refine ⟨hs.begun_isBody, ?_, ?_, ?_, ?_, ?_, ?_⟩
  · exact (sublist_append_left _ _).trans (by simpa [Session.letGo] using hs.sublist)
  · simp [Session.letGo]
  · simp [Session.letGo]
  · simp [Session.letGo]
  · have hconv := hs.conveyed
    rw [hending, map_none, toList_none, append_nil] at hconv
    simp only [Session.letGo, hdrop, ch.queued_sendReserved]
    rw [← append_assoc, hconv]
    rfl
  · simp [Session.letGo]

theorem Inv.step (hs : s.Inv capacity) {a : SinkAct} (h : s.step a = some t) : t.Inv capacity := by
  cases a with
  | sendChunk bytes => exact hs.begin rfl h
  | sendMeta entry => exact hs.begin rfl h
  | accept =>
    obtain ⟨event, hpending, h⟩ := bind_eq_some_iff.mp h
    obtain ⟨c, hc, rfl⟩ := map_eq_some_iff.mp h
    have hsink : s.sink ≠ none := fun hnone ↦ by simp [hs.waiting hnone] at hpending
    have hending := hs.ended_iff.mpr hsink
    refine ⟨hs.begun_isBody, ?_, hs.ready, hs.ended_iff, fun _ ↦ rfl, ?_, ?_⟩
    · have := hs.sublist
      rw [hpending] at this
      simpa using this
    · have := hs.conveyed
      rw [hending] at this ⊢
      simp only [map_none, toList_none, append_nil] at this ⊢
      rw [ch.queued_trySend hc, ← append_assoc, this]
    · intro _
      have hroom := hs.room hsink
      have hfree := ch.free_trySend hc
      simp only [ch.queued_trySend hc, length_append, length_singleton]
      omega
  | cancel =>
    obtain ⟨event, hpending, rfl⟩ := map_eq_some_iff.mp h
    refine ⟨hs.begun_isBody, ?_, hs.ready, hs.ended_iff, fun _ ↦ rfl, hs.conveyed, hs.room⟩
    exact (List.Sublist.append (List.Sublist.refl _) (nil_sublist _)).trans hs.sublist
  | finish call =>
    rw [Session.step] at h
    split at h
    · rename_i sink hsink hpending
      obtain ⟨r, hr, rfl⟩ := map_eq_some_iff.mp h
      rw [hs.ready sink hsink] at hr
      obtain ⟨r', hr', hdrop⟩ := call.drop_perform (!s.begun.isEmpty) s.channel
      obtain rfl : r = r' := some.inj (hr.symm.trans hr')
      exact hs.letGo (by simp [hsink]) hdrop
    · cases h
  | dropSink panicking =>
    obtain ⟨sink, hsink, rfl⟩ := map_eq_some_iff.mp h
    rw [hs.ready sink hsink]
    exact hs.letGo (by simp [hsink]) rfl
  | read =>
    obtain ⟨⟨event, c⟩, hc, rfl⟩ := map_eq_some_iff.mp h
    refine ⟨hs.begun_isBody, hs.sublist, hs.ready, hs.ended_iff, hs.waiting, ?_, ?_⟩
    · rw [← hs.conveyed, ch.queued_recv hc, append_assoc]
      rfl
    · intro hsink
      have hroom := hs.room hsink
      rw [ch.queued_recv hc, length_cons] at hroom
      have := ch.free_recv hc
      simp only [this]
      omega

theorem inv_run {s₀ : Session ch} {acts : List SinkAct}
    (h₀ : newStreamingChannel ch capacity = some s₀)
    (h : Actions.run Session.step s₀ acts = some s) : s.Inv capacity :=
  Actions.run_invariant (fun _ _ _ hs hstep ↦ hs.step hstep) (inv_newStreamingChannel h₀) h

theorem exists_read (s : Session ch) :
    ∃ k c, Actions.run Session.step s (List.replicate k .read) =
        some { s with channel := c, received := s.received ++ ch.queued s.channel } ∧
      ch.queued c = [] := by
  generalize hq : ch.queued s.channel = queued
  induction queued generalizing s with
  | nil => exact ⟨0, s.channel, by simp, hq⟩
  | cons event queued ih =>
    obtain ⟨⟨event', c⟩, hc⟩ : ∃ r, ch.recv s.channel = some r := by
      rw [← Option.ne_none_iff_exists', ne_eq, ch.recv_eq_none, hq]
      exact cons_ne_nil _ _
    obtain ⟨rfl, hrest⟩ : event = event' ∧ queued = ch.queued c :=
      cons.inj (hq.symm.trans (ch.queued_recv hc))
    obtain ⟨k, d, hrun, hd⟩ :=
      ih { s with channel := c, received := s.received ++ [event] } hrest.symm
    refine ⟨k + 1, d, ?_, hd⟩
    rw [replicate_succ, Actions.run, Session.step, hc]
    simpa using hrun

/-- Nobody is stuck: a terminal is delivered at once, and a send is given a slot once the consumer
has read enough. -/
def Unblocked (s : Session ch) : Prop :=
  (s.sink ≠ none → s.pending = none → ∀ call, s.step (.finish call) ≠ none) ∧
    (s.sink ≠ none → ∀ panicking, s.step (.dropSink panicking) ≠ none) ∧
    ∃ k t, Actions.run Session.step s (List.replicate k .read) = some t ∧
      (s.sink = none → t.Finished) ∧ (t.pending ≠ none → t.step .accept ≠ none)

theorem Inv.unblocked (hs : s.Inv capacity) (hcap : 0 < capacity) : s.Unblocked := by
  refine ⟨?_, ?_, ?_⟩
  · intro hsink hpending call
    obtain ⟨sink, hsink⟩ := Option.ne_none_iff_exists'.mp hsink
    obtain ⟨r, hr, -⟩ := call.drop_perform (!s.begun.isEmpty) s.channel
    rw [Session.step, hsink, hpending, hs.ready sink hsink]
    simp [hr]
  · intro hsink panicking
    simpa [Session.step] using hsink
  · obtain ⟨k, c, hrun, hc⟩ := exists_read s
    refine ⟨k, _, hrun, fun hsink ↦ ⟨hsink, ch.recv_eq_none.mpr hc⟩, fun hpending ↦ ?_⟩
    have ht := Actions.run_invariant (fun _ _ _ hs hstep ↦ Inv.step hs hstep) hs hrun
    have hsink : s.sink ≠ none := fun hnone ↦ hpending (ht.waiting hnone)
    have hroom : ch.free c + (ch.queued c).length = capacity := ht.room hsink
    rw [hc, length_nil, Nat.add_zero] at hroom
    obtain ⟨event, hevent⟩ := Option.ne_none_iff_exists'.mp hpending
    have hsend : (ch.trySend c event).isSome := (ch.isSome_trySend c event).mpr (hroom ▸ hcap)
    rw [Session.step, hevent]
    simpa [← isSome_iff_ne_none] using hsend

end Session

/-! ## Three consumers -/

def chunksOf : List StreamEvent → List Bytes
  | [] => []
  | .chunk bytes :: es => bytes :: chunksOf es
  | _ :: es => chunksOf es

theorem okBytes_map_ok (chunks : List Bytes) (items : List (Except WaferError Bytes)) :
    okBytes (chunks.map .ok ++ items) = chunks.flatten ++ okBytes items := by
  induction chunks with
  | nil => rfl
  | cons bytes chunks ih =>
    rw [map_cons, cons_append, okBytes, ih, flatten_cons, append_assoc]

theorem noError_map_ok (chunks : List Bytes) : NoError (chunks.map .ok) := by
  intro item hitem
  obtain ⟨bytes, -, rfl⟩ := List.mem_map.mp hitem
  rfl

theorem consume_body {es : List StreamEvent} (hes : ∀ e ∈ es, e.isBody)
    (rest : List StreamEvent) (anyBodyEvent : Bool) :
    (∀ body entries, ∃ entries', collectFrom body entries anyBodyEvent (es ++ rest) =
        collectFrom (body ++ (chunksOf es).flatten) entries' (anyBodyEvent || !es.isEmpty) rest) ∧
      bodyItemsFrom anyBodyEvent (es ++ rest) =
        (chunksOf es).map .ok ++ bodyItemsFrom (anyBodyEvent || !es.isEmpty) rest ∧
      itemsFrom none none (es ++ rest) = (chunksOf es).map .ok ++ itemsFrom none none rest := by
  induction es generalizing anyBodyEvent with
  | nil => exact ⟨fun body entries ↦ ⟨entries, by simp [chunksOf]⟩, by simp [chunksOf], rfl⟩
  | cons e es ih =>
    rw [forall_mem_cons] at hes
    obtain ⟨hcollect, hpiped, hserved⟩ := ih hes.2 true
    cases e with
    | chunk bytes =>
      refine ⟨fun body entries ↦ ?_, ?_, ?_⟩
      · obtain ⟨entries', h⟩ := hcollect (body ++ bytes) entries
        exact ⟨entries', by simpa [collectFrom, chunksOf] using h⟩
      · simpa [bodyItemsFrom, chunksOf] using hpiped
      · simpa [itemsFrom, chunksOf] using hserved
    | metadata entry =>
      refine ⟨fun body entries ↦ ?_, ?_, ?_⟩
      · obtain ⟨entries', h⟩ := hcollect body (entries ++ [entry])
        exact ⟨entries', by simpa [collectFrom, chunksOf] using h⟩
      · simpa [bodyItemsFrom, chunksOf] using hpiped
      · simpa [itemsFrom, chunksOf] using hserved
    | _ => exact absurd hes.1 (by simp [StreamEvent.isBody, StreamEvent.isTerminal])

/-- Collecting a stream, piping its body on and serving it give the same body or the same error. -/
def ConsumersAgree (es : List StreamEvent) : Prop :=
  let collected := collectBuffered (.ofEvents es)
  let piped := bodyStreamOrError (.ofEvents es)
  let served := (⟨some es, none, none⟩ : StreamedBody).items
  (∀ body, (∃ entries, collected = .ok ⟨body, entries⟩) ↔ NoError piped ∧ okBytes piped = body) ∧
    (∀ body, (∃ entries, collected = .ok ⟨body, entries⟩) ↔
      NoError served ∧ okBytes served = body) ∧
    ((∃ response, collected = .ok response) ∨
      ∃ err, collected = .error (.error err) ∧ FailsWith piped err ∧ FailsWith served err)

theorem ofEvents_events (es : List StreamEvent) : (OutputStream.ofEvents es).events = es :=
  filterMap_some

theorem consumersAgree_complete {es : List StreamEvent} (hes : ∀ e ∈ es, e.isBody)
    (trailing : List MetaEntry) : ConsumersAgree (es ++ [.complete trailing]) := by
  obtain ⟨hcollect, hpiped, hserved⟩ := consume_body hes [.complete trailing] false
  obtain ⟨entries', hcollect⟩ := hcollect [] []
  have hitems (body : Bytes) : ((∃ entries,
      collectFrom [] [] false (es ++ [.complete trailing]) = .ok ⟨body, entries⟩) ↔
        NoError ((chunksOf es).map .ok) ∧ okBytes ((chunksOf es).map .ok) = body) := by
    have hbytes := okBytes_map_ok (chunksOf es) []
    rw [append_nil, okBytes, append_nil] at hbytes
    rw [hcollect, hbytes]
    simp [collectFrom, noError_map_ok]
  simp only [ConsumersAgree, collectBuffered, bodyStreamOrError, ofEvents_events,
    StreamedBody.items_eq_allItems, StreamedBody.allItems, map_some, getD_some]
  rw [hpiped, hserved]
  refine ⟨?_, ?_, .inl ⟨_, by rw [hcollect]; rfl⟩⟩
  · simpa [bodyItemsFrom] using hitems
  · simpa [itemsFrom, pollEvents] using hitems

theorem consumersAgree_error {es : List StreamEvent} (hes : ∀ e ∈ es, e.isBody)
    (err : WaferError) : ConsumersAgree (es ++ [.error err]) := by
  obtain ⟨hcollect, hpiped, hserved⟩ := consume_body hes [.error err] false
  obtain ⟨entries', hcollect⟩ := hcollect [] []
  have hfails : FailsWith ((chunksOf es).map .ok ++ [.error err]) err := ⟨_, rfl⟩
  simp only [ConsumersAgree, collectBuffered, bodyStreamOrError, ofEvents_events,
    StreamedBody.items_eq_allItems, StreamedBody.allItems, map_some, getD_some]
  rw [hpiped, hserved, hcollect]
  refine ⟨?_, ?_, .inr ⟨err, rfl, hfails, hfails⟩⟩
  · simpa [collectFrom, bodyItemsFrom] using not_noError_of_failsWith hfails
  · simpa [collectFrom, itemsFrom, pollEvents] using not_noError_of_failsWith hfails

/-! ## The protocol -/

theorem Ending.isTerminal_delivered (sent : Bool) (ending : Ending) :
    (ending.delivered sent).isTerminal = true := by
  rcases ending with call | panicking
  · rw [delivered]
    split_ifs
    · rfl
    · cases call <;> rfl
  · rfl

theorem Ending.delivered_true (ending : Ending) :
    (∃ entries, ending.delivered true = .complete entries) ∨
      ∃ err, ending.delivered true = .error err := by
  rcases ending with call | panicking
  · cases call with
    | complete entries => exact .inl ⟨entries, rfl⟩
    | _ => exact .inr ⟨_, rfl⟩
  · exact .inr ⟨_, rfl⟩

/-- A terminal ends the stream of a session: it is what the ending of the producer delivers, and it
stands for a whole response only if nothing was sent before it. -/
def Session.EndsWith {ch : Channel StreamEvent} (s : Session ch) (terminal : StreamEvent) : Prop :=
  terminal.isTerminal ∧ (terminal.replacesBody → s.sent = []) ∧
    ∃ ending, s.ending = some ending ∧ terminal = ending.delivered !s.begun.isEmpty

theorem Session.Inv.endsWith {ch : Channel StreamEvent} {capacity : ℕ} {s : Session ch}
    (hs : s.Inv capacity) (hsink : s.sink = none) :
    ∃ terminal, s.EndsWith terminal ∧
      s.received ++ ch.queued s.channel = s.sent ++ [terminal] := by
  have hne : s.ending ≠ none := fun hnone ↦ hs.ended_iff.mp hnone hsink
  obtain ⟨ending, hending⟩ := Option.ne_none_iff_exists'.mp hne
  refine ⟨ending.delivered !s.begun.isEmpty,
    ⟨ending.isTerminal_delivered _, fun hrep ↦ ?_, ending, hending, rfl⟩, ?_⟩
  · by_contra hsent
    -- what was sent was begun, so the ending was refused or is no replacement
    have hbegun : s.begun ≠ [] := by
      rintro hnil
      have := hs.sublist
      rw [hnil, sublist_nil, append_eq_nil_iff] at this
      exact hsent this.1
    rw [isEmpty_eq_false_iff.mpr hbegun] at hrep
    rcases ending.delivered_true with ⟨entries, he⟩ | ⟨err, he⟩
    · simp [he, StreamEvent.replacesBody] at hrep
    · simp [he, StreamEvent.replacesBody] at hrep
  · rw [hs.conveyed, hending]
    rfl

/-- **The protocol of output streams.** In every run of a producer, its channel and its consumer,
the consumer reads what was sent in order, and then one terminal. A terminal that stands for a whole
response follows nothing else. Nobody is stuck on the way. Once the consumer has read everything,
collecting the stream, piping its body on and serving it agree, if anything was sent, and a lone
`halt` gives its body. -/
theorem outputStream_protocol (ch : Channel StreamEvent) (capacity : ℕ) (s₀ s : Session ch)
    (acts : List SinkAct) (h₀ : newStreamingChannel ch capacity = some s₀)
    (h : Actions.run Session.step s₀ acts = some s) :
    ((∀ event ∈ s.begun, event.isBody) ∧ s.sent.Sublist s.begun) ∧
      (s.sink ≠ none → s.received ++ ch.queued s.channel = s.sent) ∧
      (s.sink = none → ∃ terminal, s.EndsWith terminal ∧
        s.received ++ ch.queued s.channel = s.sent ++ [terminal]) ∧
      s.Unblocked ∧
      (s.Finished →
        (∃ terminal, s.EndsWith terminal ∧ s.received = s.sent ++ [terminal]) ∧
          (s.received.any StreamEvent.isBody → ConsumersAgree s.received) ∧
          ∀ body entries, s.received = [.halt body entries] →
            collectBuffered (.ofEvents s.received) = .error (.halt ⟨body, entries⟩) ∧
              NoError (bodyStreamOrError (.ofEvents s.received)) ∧
              okBytes (bodyStreamOrError (.ofEvents s.received)) = body) := by
  have hs := Session.inv_run h₀ h
  have hcap : 0 < capacity := by
    by_contra hcap
    rw [newStreamingChannel, if_neg hcap] at h₀
    cases h₀
  have hsub : s.sent.Sublist s.begun := (sublist_append_left _ _).trans hs.sublist
  refine ⟨⟨hs.begun_isBody, hsub⟩, fun hsink ↦ ?_, hs.endsWith, hs.unblocked hcap, ?_⟩
  · have := hs.conveyed
    rw [hs.ended_iff.mpr hsink] at this
    simpa using this
  · rintro ⟨hsink, hrecv⟩
    obtain ⟨terminal, hends, hall⟩ := hs.endsWith hsink
    rw [ch.recv_eq_none.mp hrecv, append_nil] at hall
    refine ⟨⟨terminal, hends, hall⟩, fun hbody ↦ ?_, fun body entries hhalt ↦ ?_⟩
    · have hes : ∀ e ∈ s.sent, e.isBody := fun e he ↦ hs.begun_isBody e (hsub.subset he)
      have hbegun : s.begun ≠ [] := by
        rintro hnil
        rw [hnil, sublist_nil] at hsub
        have hterm := hends.1
        simp [hall, hsub, StreamEvent.isBody, hterm] at hbody
      obtain ⟨-, -, ending, -, hterm⟩ := hends
      rw [hall, hterm, isEmpty_eq_false_iff.mpr hbegun]
      rcases ending.delivered_true with ⟨trailing, he⟩ | ⟨err, he⟩
      · exact he ▸ consumersAgree_complete hes trailing
      · exact he ▸ consumersAgree_error hes err
    · rw [hhalt, collectBuffered, bodyStreamOrError, ofEvents_events]
      refine ⟨rfl, ?_⟩
      by_cases hbody : body = []
      · simp [bodyItemsFrom, hbody, NoError, okBytes]
      · simp [bodyItemsFrom, hbody, NoError, okBytes, Except.isOk, Except.toBool]

/-- Two chunks through a channel with one slot, and a `halt` after them. -/
def refusedHalt : List SinkAct :=
  [.sendChunk [1], .accept, .sendChunk [2], .read, .accept, .finish (.halt [3] []), .read, .read]

theorem outputStream_protocol_refusedHalt :
    ∃ s₀ s : Session (Channel.ofList StreamEvent), newStreamingChannel _ 1 = some s₀ ∧
      Actions.run Session.step s₀ refusedHalt = some s ∧ s.Finished ∧
      s.received = [.chunk [1], .chunk [2], .error (droppedError false)] ∧
      ConsumersAgree s.received :=
  ⟨_, _, rfl, rfl, ⟨rfl, rfl⟩, rfl,
    ((outputStream_protocol _ 1 _ _ refusedHalt rfl rfl).2.2.2.2 ⟨rfl, rfl⟩).2.1 rfl⟩

end WaferRun
