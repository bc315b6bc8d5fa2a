import WaferRun.Wasm.StreamMoves

/-!
# The protocol of a guest's streams

Over a run of a call, what is heard of one stream is a `Story`: it is opened, written, dispatched,
answered and read, in this order, and it may break off anywhere. What is dispatched is the message
the stream was opened with, with the chunks that were written; what is read are the frames of the
answer, from the first on; and the end is reported only after all of them, if the answer ends
regularly.

The stories are kept by every move of a stream (`Facts.move`). The rest of the invariant ties the
streams to who runs: a stream that is finished and not answered is the one the host waits for, and a
frame that was pulled and not handed over is the one the host delivers (`Protocol`, which every run
keeps).

A guest reads the answers as numbers, and zero stands for the end. It is also the code of an error
whose code is `ok`, and the place of an empty frame at address zero. The handles come from a counter
that wraps, and a message may lose metadata as it leaves the guest. The runs in which none of this
happens are the runs of regular steps (`GuestCall.Regular`).

## Main results

* `stream_protocol`: the protocol, for the runs of regular steps.
* `zero_before_complete`: an error whose code is `ok` reads like the end of the answer.
-/

open List

namespace WaferRun.Wasm

open HandleTable

/-! ## Runs -/

variable (codec : GuestCodec) (caps : BlockCapabilities) (owned : HostOwnedMeta)

/-- The runs whose steps all meet a condition on the call before the step. -/
inductive RunWhere (P : GuestCall → Action → Prop) (maxHostBytes maxLiveStreams : ℕ) :
    GuestCall → List CallEvent → Prop
  | start : RunWhere P maxHostBytes maxLiveStreams
      ⟨.running, .start caps owned maxHostBytes maxLiveStreams⟩ []
  | step {c c' : GuestCall} {a : Action} {log events : List CallEvent}
      (hrun : RunWhere P maxHostBytes maxLiveStreams c log) (ha : P c a)
      (hstep : c.step codec a = some (c', events)) :
    RunWhere P maxHostBytes maxLiveStreams c' (log ++ events)

abbrev Run (maxHostBytes maxLiveStreams : ℕ) : GuestCall → List CallEvent → Prop :=
  RunWhere codec caps owned (fun _ _ ↦ True) maxHostBytes maxLiveStreams

variable {codec caps owned} in
theorem RunWhere.mono {P Q : GuestCall → Action → Prop} (h : ∀ c a, P c a → Q c a)
    {maxHostBytes maxLiveStreams : ℕ} {c : GuestCall} {log : List CallEvent}
    (hrun : RunWhere codec caps owned P maxHostBytes maxLiveStreams c log) :
    RunWhere codec caps owned Q maxHostBytes maxLiveStreams c log := by
  induction hrun with
  | start => exact .start
  | step _ ha hstep ih => exact ih.step (h _ _ ha) hstep

def CallEvent.tells (handle : Handle) : CallEvent → Bool
  | opened h _ _ _ | wrote h _ | attached h _ _ | dispatched h _ _ _ _ | answered h _ | pulled h _
  | finished h => h = handle
  | failed _ _ | resumed _ _ _ => false

def heard (handle : Handle) (log : List CallEvent) : List CallEvent :=
  log.filter fun e ↦ e.tells handle

def openedHandles (log : List CallEvent) : List Handle :=
  log.filterMap fun
    | .opened handle _ _ _ => some handle
    | _ => none

def pulledFrames (handle : Handle) (log : List CallEvent) : List Bytes :=
  log.filterMap fun
    | .pulled h frame => if h = handle then some frame else none
    | _ => none

/-- The frames of a stream the guest was resumed with. -/
def readFrames (handle : Handle) (log : List CallEvent) : List Bytes :=
  log.filterMap fun
    | .resumed h frame _ => if h = handle then some frame else none
    | _ => none

section

variable {handle : Handle} {log events : List CallEvent}

theorem heard_append : heard handle (log ++ events) = heard handle log ++ heard handle events :=
  filter_append ..

theorem openedHandles_append :
    openedHandles (log ++ events) = openedHandles log ++ openedHandles events :=
  filterMap_append ..

theorem heard_told : heard handle (told events) = heard handle events := by
  rw [heard, told, filter_filter]
  refine filter_congr fun e _ ↦ ?_
  cases e <;> simp [CallEvent.tells]

theorem openedHandles_told : openedHandles (told events) = openedHandles events := by
  rw [openedHandles, told, filterMap_filter]
  refine filterMap_congr fun e _ ↦ ?_
  cases e <;> rfl

theorem pulledFrames_append :
    pulledFrames handle (log ++ events) = pulledFrames handle log ++ pulledFrames handle events :=
  filterMap_append ..

theorem readFrames_append :
    readFrames handle (log ++ events) = readFrames handle log ++ readFrames handle events :=
  filterMap_append ..

end

/-! ## Stories -/

inductive RequestPart
  | chunk (bytes : Bytes)
  | attachment (id : String) (att : Attachment)

namespace RequestPart

def event (handle : Handle) : RequestPart → CallEvent
  | chunk bytes => .wrote handle bytes
  | attachment id att => .attached handle id att

def bytes : RequestPart → Bytes
  | chunk bytes => bytes
  | attachment _ _ => []

def attachTo (attachments : Attachments) : RequestPart → Attachments
  | chunk _ => attachments
  | attachment id att => attachments.insert id att

end RequestPart

structure StreamRequest where
  target : String
  encoded : Bytes
  msg : Message
  parts : List RequestPart

section

variable (out : Message → Message)

namespace StreamRequest

def body (q : StreamRequest) : Bytes := q.parts.flatMap RequestPart.bytes

def attachments (q : StreamRequest) : Attachments := q.parts.foldl RequestPart.attachTo ∅

def written (q : StreamRequest) (handle : Handle) : List CallEvent :=
  .opened handle q.target q.encoded q.msg :: q.parts.map (RequestPart.event handle)

/-- The events of a request that was dispatched, with its message as `out` makes it. -/
def sent (q : StreamRequest) (handle : Handle) : List CallEvent :=
  q.written handle ++
    [.dispatched handle q.target (out q.msg) q.body q.attachments]

def answered (q : StreamRequest) (handle : Handle) (output : List StreamEvent) (frames : List Bytes) :
    List CallEvent :=
  q.sent out handle ++ .answered handle output :: frames.map (.pulled handle)

def more (q : StreamRequest) (part : RequestPart) : StreamRequest :=
  { q with parts := q.parts ++ [part] }

theorem written_more (q : StreamRequest) (part : RequestPart) (handle : Handle) :
    (q.more part).written handle = q.written handle ++ [part.event handle] := by
  simp [written, more]

theorem body_more (q : StreamRequest) (part : RequestPart) :
    (q.more part).body = q.body ++ part.bytes := by
  simp [body, more]

theorem attachments_more (q : StreamRequest) (part : RequestPart) :
    (q.more part).attachments = part.attachTo q.attachments := by
  simp [attachments, more]

end StreamRequest

/-- What may be heard of a stream. -/
inductive Story (handle : Handle) : List CallEvent → Prop
  | unopened : Story handle []
  | written (q : StreamRequest) : Story handle (q.written handle)
  | sent (q : StreamRequest) : Story handle (q.sent out handle)
  | answered (q : StreamRequest) {output : List StreamEvent} {frames : List Bytes}
      (hframes : frames <+: answerFrames output) :
    Story handle (q.answered out handle output frames)
  | finished (q : StreamRequest) {output : List StreamEvent}
      (hcompletes : answerCompletes output = true) :
    Story handle
      (q.answered out handle output (answerFrames output) ++ [.finished handle])

inductive Facts (handle : Handle) : List CallEvent → StreamState → Prop
  | writing (q : StreamRequest) {st : StreamState} (hphase : st.phase = .writingRequest)
      (htarget : st.targetBlock = q.target) (hmsg : st.msg = some q.msg)
      (hbuffer : st.requestBuffer = q.body) (hattachments : st.attachments = q.attachments) :
    Facts handle (q.written handle) st
  | finishing (q : StreamRequest) {st : StreamState} (hphase : st.phase = .finishing) :
    Facts handle (q.sent out handle) st
  | reading (q : StreamRequest) {output rest : List StreamEvent} {frames : List Bytes}
      {st : StreamState} (hphase : st.phase = .readingResponse)
      (hstream : st.responseStream = some rest)
      (hframes : answerFrames output = frames ++ answerFrames rest)
      (hcompletes : answerCompletes output = answerCompletes rest) :
    Facts handle (q.answered out handle output frames) st
  | ended {l : List CallEvent} {st : StreamState} (hstory : Story out handle l)
      (hphase : st.phase = .readingResponse ∨ st.phase = .closed)
      (hstream : st.responseStream = none) : Facts handle l st

end

section

variable {out} {handle : Handle} {l : List CallEvent} {st st' : StreamState}

theorem Facts.story (h : Facts out handle l st) : Story out handle l := by
  cases h with
  | writing q => exact .written q
  | finishing q => exact .sent q
  | reading q _ _ hframes => exact .answered q ⟨_, hframes.symm⟩
  | ended hstory => exact hstory

theorem Facts.of_writingRequest (h : Facts out handle l st)
    (hphase : st.phase = .writingRequest) :
    ∃ q : StreamRequest, l = q.written handle ∧ st.targetBlock = q.target ∧
      st.msg = some q.msg ∧ st.requestBuffer = q.body ∧ st.attachments = q.attachments := by
  cases h with
  | writing q _ htarget hmsg hbuffer hatts => exact ⟨q, rfl, htarget, hmsg, hbuffer, hatts⟩
  | finishing q hphase' => exact absurd (hphase.symm.trans hphase') nofun
  | reading q hphase' => exact absurd (hphase.symm.trans hphase') nofun
  | ended _ hphase' => rcases hphase' with hp | hp <;> exact absurd (hphase.symm.trans hp) nofun

theorem Facts.of_finishing (h : Facts out handle l st) (hphase : st.phase = .finishing) :
    ∃ q : StreamRequest, l = q.sent out handle := by
  cases h with
  | writing q hphase' => exact absurd (hphase.symm.trans hphase') nofun
  | finishing q => exact ⟨q, rfl⟩
  | reading q hphase' => exact absurd (hphase.symm.trans hphase') nofun
  | ended _ hphase' => rcases hphase' with hp | hp <;> exact absurd (hphase.symm.trans hp) nofun

theorem Facts.of_responseStream {rest : List StreamEvent} (h : Facts out handle l st)
    (hphase : st.phase = .readingResponse) (hstream : st.responseStream = some rest) :
    ∃ (q : StreamRequest) (output : List StreamEvent) (frames : List Bytes),
      l = q.answered out handle output frames ∧
      answerFrames output = frames ++ answerFrames rest ∧
      answerCompletes output = answerCompletes rest := by
  cases h with
  | writing q hphase' => exact absurd (hphase.symm.trans hphase') nofun
  | finishing q hphase' => exact absurd (hphase.symm.trans hphase') nofun
  | reading q _ hstream' hframes hcompletes =>
    obtain rfl := Option.some.inj (hstream.symm.trans hstream')
    exact ⟨q, _, _, rfl, hframes, hcompletes⟩
  | ended _ _ hstream' => exact absurd (hstream.symm.trans hstream') nofun

theorem Facts.takeError (h : Facts out handle l st) :
    Facts out handle l st.takeError.2 := by
  cases h with
  | writing q hp ht hm hb ha => exact .writing q hp ht hm hb ha
  | finishing q hp => exact .finishing q hp
  | reading q hp hs hframes hcompletes => exact .reading q hp hs hframes hcompletes
  | ended hstory hp hs => exact .ended hstory hp hs

/-- What is heard of a stream goes on as its phases allow. -/
theorem Facts.move {n : ℕ} {events : List CallEvent} (h : Facts out handle l st)
    (hmove : StreamMove out handle st st' n events) :
    Facts out handle (l ++ events) st' := by
  cases hmove with
  | @wrote chunk hphase =>
    obtain ⟨q, rfl, htarget, hmsg, hbuffer, hatts⟩ := h.of_writingRequest hphase
    have hwritten := q.written_more (.chunk chunk) handle
    rw [RequestPart.event] at hwritten
    rw [← hwritten]
    refine .writing _ hphase htarget hmsg ?_ ?_
    · rw [q.body_more, hbuffer]
      rfl
    · rw [q.attachments_more, hatts]
      rfl
  | @attached id att hphase =>
    obtain ⟨q, rfl, htarget, hmsg, hbuffer, hatts⟩ := h.of_writingRequest hphase
    have hwritten := q.written_more (.attachment id att) handle
    rw [RequestPart.event] at hwritten
    rw [← hwritten]
    refine .writing _ hphase htarget hmsg ?_ ?_
    · rw [q.body_more, hbuffer]
      exact (append_nil _).symm
    · rw [q.attachments_more, hatts]
      rfl
  | refused n err =>
    rw [append_nil]
    exact .ended h.story (.inr rfl) rfl
  | drained err =>
    rw [append_nil]
    exact .ended h.story (.inr rfl) rfl
  | dispatched hphase hmsg =>
    obtain ⟨q, rfl, htarget, hmsg', hbuffer, hatts⟩ := h.of_writingRequest hphase
    obtain rfl := Option.some.inj (hmsg'.symm.trans hmsg)
    rw [htarget, hbuffer, hatts]
    exact .finishing q rfl
  | answered output hphase =>
    obtain ⟨q, rfl⟩ := h.of_finishing hphase
    exact .reading q rfl rfl (nil_append _).symm rfl
  | @pulled stream rest raw frame hphase hstream hframes hcompletes _ =>
    obtain ⟨q, output, frames, rfl, hframes', hcompletes'⟩ := h.of_responseStream hphase hstream
    have hanswered : q.answered out handle output frames ++ [.pulled handle frame] =
        q.answered out handle output (frames ++ [frame]) := by
      simp [StreamRequest.answered]
    rw [hanswered]
    refine .reading q hphase rfl ?_ (hcompletes'.trans hcompletes)
    rw [hframes', hframes, append_assoc, singleton_append]
  | @finished stream raw hphase hstream hframes hcompletes =>
    obtain ⟨q, output, frames, rfl, hframes', hcompletes'⟩ := h.of_responseStream hphase hstream
    rw [hframes, append_nil] at hframes'
    rw [← hframes']
    exact .ended (.finished q (hcompletes'.trans hcompletes)) (.inl hphase) rfl
  | failed hphase =>
    rw [append_nil]
    exact .ended h.story (.inl hphase) rfl
  | errorTaken =>
    rw [append_nil]
    exact h.takeError
  | kept =>
    rw [append_nil]
    exact h

theorem StreamMove.tells {n : ℕ} {events : List CallEvent}
    (hmove : StreamMove out handle st st' n events) :
    ∀ e ∈ events, ∀ other, e.tells other = decide (handle = other) := by
  cases hmove <;> simp [CallEvent.tells]

theorem StreamMove.openedHandles {n : ℕ} {events : List CallEvent}
    (hmove : StreamMove out handle st st' n events) : openedHandles events = [] := by
  cases hmove <;> rfl

theorem StreamMove.rank_le {n : ℕ} {events : List CallEvent}
    (hmove : StreamMove out handle st st' n events) : st.phase.rank ≤ st'.phase.rank := by
  cases hmove with
  | wrote | attached | pulled | finished | failed | errorTaken | kept => exact le_rfl
  | refused | drained =>
    change st.phase.rank ≤ 3
    cases st.phase <;> decide
  | dispatched hphase =>
    rw [hphase]
    exact Nat.zero_le _
  | answered output hphase =>
    rw [hphase]
    exact Nat.le_succ 1

end

/-! ## The streams of a run -/

section

variable {out}

structure StreamsFit (out : Message → Message) (r : StreamRegistry) (log : List CallEvent) :
    Prop where
  /-- The counter has been advanced once for each stream, and comes back to `0` at most. -/
  handles : ∃ n < 2 ^ 64, r.nextHandle = UInt64.ofNat (n + 1) ∧
    openedHandles log = (List.range' 1 n).map UInt64.ofNat
  issued : ∀ handle st, r.get handle = some st → handle ∈ openedHandles log
  silent : ∀ handle, handle ∉ openedHandles log → heard handle log = []
  live : ∀ handle st, r.get handle = some st → Facts out handle (heard handle log) st
  gone : ∀ handle, r.get handle = none → Story out handle (heard handle log)

variable {r r' : StreamRegistry} {log events : List CallEvent}

theorem StreamsFit.story (h : StreamsFit out r log) (handle : Handle) :
    Story out handle (heard handle log) := by
  rcases hget : r.get handle with - | st
  · exact h.gone handle hget
  · exact (h.live handle st hget).story

theorem eq_of_ofNat_eq {m n : ℕ} (hm : m < 2 ^ 64) (hn : n < 2 ^ 64)
    (h : UInt64.ofNat m = UInt64.ofNat n) : m = n := by
  have hmod := congrArg UInt64.toNat h
  rwa [UInt64.toNat_ofNat', UInt64.toNat_ofNat', Nat.mod_eq_of_lt hm, Nat.mod_eq_of_lt hn] at hmod

theorem StreamsFit.nodup (h : StreamsFit out r log) : (openedHandles log).Nodup := by
  obtain ⟨n, hn, -, hopened⟩ := h.handles
  rw [hopened]
  refine Nodup.map_on (fun k hk k' hk' heq ↦ ?_) List.nodup_range'
  have hk := List.mem_range'_1.mp hk
  have hk' := List.mem_range'_1.mp hk'
  exact eq_of_ofNat_eq (by omega) (by omega) heq

/-- A counter that has not come round names a new handle. -/
theorem StreamsFit.next_fresh (h : StreamsFit out r log) (hnext : r.nextHandle ≠ 0) :
    r.nextHandle ∉ openedHandles log := by
  obtain ⟨n, hn, hcounter, hopened⟩ := h.handles
  rw [hopened]
  intro hmem
  obtain ⟨k, hk, heq⟩ := mem_map.mp hmem
  have hk := List.mem_range'_1.mp hk
  rcases (Nat.succ_le_of_lt hn).lt_or_eq with hlt | hround
  · have := eq_of_ofNat_eq (by omega) hlt (heq.trans hcounter)
    omega
  · refine hnext ?_
    rw [hcounter, ← Nat.succ_eq_add_one, hround]
    rfl

theorem heard_of_tells {handle : Handle}
    (h : ∀ e ∈ events, ∀ other, e.tells other = decide (handle = other)) (other : Handle) :
    heard other (log ++ events) = heard other log ++ if handle = other then events else [] := by
  rw [heard_append]
  congr 1
  split_ifs with heq
  · exact filter_eq_self.mpr fun e he ↦ by rw [h e he, decide_eq_true heq]
  · exact filter_eq_nil_iff.mpr fun e he ↦ by rw [h e he, decide_eq_false heq]; exact nofun

theorem get_put_self (r : StreamRegistry) (handle : Handle) (st : StreamState) :
    (r.put handle st).get handle = some st :=
  AList.lookup_insert _

theorem get_put_of_ne (r : StreamRegistry) {handle other : Handle} (st : StreamState)
    (h : other ≠ handle) : (r.put handle st).get other = r.get other :=
  AList.lookup_insert_ne h

theorem get_close_self (r : StreamRegistry) (handle : Handle) : (r.close handle).get handle = none :=
  AList.lookup_erase ..

theorem get_close_of_ne (r : StreamRegistry) {handle other : Handle} (h : other ≠ handle) :
    (r.close handle).get other = r.get other :=
  AList.lookup_erase_ne h

theorem Charge.get {n : ℕ} (h : Charge r n r') (handle : Handle) :
    r'.get handle = r.get handle := by
  rw [StreamRegistry.get, h.states.1, StreamRegistry.get]

/-- A stream after a step is as it was, and then no answer to it was told, or it is new, or it
moved. -/
theorem Effect.of_get {subject : Option Handle} (heffect : Effect out r subject r' events)
    {handle : Handle} {st : StreamState} (hget : r'.get handle = some st) :
    (r.get handle = some st ∧ ∀ output, events ≠ [.answered handle output]) ∨
      (handle = r.nextHandle ∧ openedHandles events ≠ [] ∧ ∃ target msg, st = .new target msg) ∨
      ∃ st₁ n, r.get handle = some st₁ ∧ StreamMove out handle st₁ st n events := by
  cases heffect with
  | charge hcharge => exact .inl ⟨(hcharge.get handle).symm.trans hget, nofun⟩
  | @opened n r'' target encoded msg hn hcharge hroom =>
    by_cases heq : handle = r.nextHandle
    · subst heq
      have hself : (r.states.insert r.nextHandle (.new target msg)).lookup r.nextHandle =
          some (.new target msg) := AList.lookup_insert _
      exact .inr (.inl ⟨rfl, cons_ne_nil _ _, target, msg,
        Option.some.inj (hget.symm.trans hself)⟩)
    · exact .inl ⟨(AList.lookup_insert_ne heq).symm.trans hget, nofun⟩
  | @moved n h' r'' st₁ st₂ tale hget₁ hmove hcharge =>
    by_cases heq : handle = h'
    · subst heq
      obtain rfl := Option.some.inj ((get_put_self r'' handle st₂).symm.trans hget)
      exact .inr (.inr ⟨st₁, n, hget₁, hmove⟩)
    · refine .inl ⟨(hcharge.get handle).symm.trans ((get_put_of_ne r'' st₂ heq).symm.trans hget),
        fun output htale ↦ ?_⟩
      -- the answer would be heard of another stream
      have htells := hmove.tells (.answered handle output) (htale ▸ mem_cons_self) h'
      rw [CallEvent.tells, decide_eq_true (rfl : h' = h')] at htells
      exact heq (of_decide_eq_true htells)
  | closed h' =>
    by_cases heq : handle = h'
    · subst heq
      exact absurd ((get_close_self r handle).symm.trans hget) nofun
    · exact .inl ⟨(get_close_of_ne r heq).symm.trans hget, nofun⟩

theorem Effect.get_of_none {subject : Option Handle} (heffect : Effect out r subject r' events)
    {handle : Handle} (hnone : r.get handle = none) (hlive : r'.get handle ≠ none) :
    handle = r.nextHandle ∧ openedHandles events ≠ [] := by
  obtain ⟨st, hget⟩ := Option.ne_none_iff_exists'.mp hlive
  rcases heffect.of_get hget with ⟨hg, -⟩ | ⟨heq, hopened, -⟩ | ⟨st₁, n, hg, -⟩
  · exact absurd (hnone.symm.trans hg) nofun
  · exact ⟨heq, hopened⟩
  · exact absurd (hnone.symm.trans hg) nofun

theorem Effect.get_of_ne {subject : Option Handle} (heffect : Effect out r subject r' events)
    (hfit : StreamsFit out r log) (hnext : openedHandles events ≠ [] → r.nextHandle ≠ 0)
    {handle : Handle} {st : StreamState} (hget : r.get handle = some st)
    (hne : subject ≠ some handle) : r'.get handle = some st := by
  cases heffect with
  | charge h => exact (h.get handle).trans hget
  | opened hn h hroom =>
    have hother : handle ≠ r.nextHandle := fun heq ↦
      hfit.next_fresh (hnext (cons_ne_nil _ _)) (heq ▸ hfit.issued handle st hget)
    exact (AList.lookup_insert_ne hother).trans hget
  | @moved n h' r'' _ st' events _ hmove h =>
    have hother : handle ≠ h' := fun heq ↦ hne (congrArg some heq.symm)
    exact (get_put_of_ne r'' st' hother).trans ((h.get handle).trans hget)
  | closed h' =>
    have hother : handle ≠ h' := fun heq ↦ hne (congrArg some heq.symm)
    exact (get_close_of_ne r hother).trans hget

theorem Effect.rank_le {subject : Option Handle} (heffect : Effect out r subject r' events)
    (hfit : StreamsFit out r log) (hnext : openedHandles events ≠ [] → r.nextHandle ≠ 0)
    {handle : Handle} {st st' : StreamState} (hget : r.get handle = some st)
    (hget' : r'.get handle = some st') : st.phase.rank ≤ st'.phase.rank := by
  rcases heffect.of_get hget' with ⟨hg, -⟩ | ⟨heq, hopened, -⟩ | ⟨st₁, n, hg, hmove⟩
  · obtain rfl := Option.some.inj (hget.symm.trans hg)
    exact le_rfl
  · exact absurd (heq ▸ hfit.issued handle st hget) (hfit.next_fresh (hnext hopened))
  · obtain rfl := Option.some.inj (hget.symm.trans hg)
    exact hmove.rank_le

/-! What is heard goes on fitting the streams. -/

theorem StreamsFit.charge {n : ℕ} (hfit : StreamsFit out r log) (h : Charge r n r') :
    StreamsFit out r' log where
  handles := h.states.2.1 ▸ hfit.handles
  issued handle st hl := hfit.issued handle st ((h.get handle).symm.trans hl)
  silent := hfit.silent
  live handle st hl := hfit.live handle st ((h.get handle).symm.trans hl)
  gone handle hl := hfit.gone handle ((h.get handle).symm.trans hl)

theorem StreamsFit.open (hfit : StreamsFit out r log) (r' : StreamRegistry)
    (hnext : r.nextHandle ≠ 0) (target : String) (encoded : Bytes) (msg : Message) :
    StreamsFit out
      { r' with
        nextHandle := r.nextHandle + 1
        states := r.states.insert r.nextHandle (.new target msg) }
      (log ++ [.opened r.nextHandle target encoded msg]) := by
  have hfresh := hfit.next_fresh hnext
  have hheard := @heard_of_tells log [.opened r.nextHandle target encoded msg] r.nextHandle
    (by simp [CallEvent.tells])
  have hself : (r.states.insert r.nextHandle (.new target msg)).lookup r.nextHandle =
      some (.new target msg) := AList.lookup_insert _
  have hother : ∀ {handle : Handle}, handle ≠ r.nextHandle →
      (r.states.insert r.nextHandle (.new target msg)).lookup handle = r.get handle :=
    fun hne ↦ AList.lookup_insert_ne hne
  have hopened : openedHandles (log ++ [.opened r.nextHandle target encoded msg]) =
      openedHandles log ++ [r.nextHandle] := openedHandles_append
  refine ⟨?_, fun handle st hl ↦ ?_, fun handle hl ↦ ?_, fun handle st hl ↦ ?_,
    fun handle hl ↦ ?_⟩
  · obtain ⟨m, hm, hcounter, hlog⟩ := hfit.handles
    refine ⟨m + 1, (Nat.succ_le_of_lt hm).lt_of_ne fun hround ↦ hnext ?_, ?_, ?_⟩
    · rw [hcounter, ← Nat.succ_eq_add_one, hround]
      rfl
    · rw [hcounter]
      exact (UInt64.ofNat_add _ _).symm
    · rw [hopened, hlog, hcounter, List.range'_concat, map_append, Nat.one_mul, Nat.add_comm 1 m]
      rfl
  · rw [hopened, mem_append]
    by_cases heq : handle = r.nextHandle
    · exact .inr (mem_singleton.mpr heq)
    · exact .inl (hfit.issued handle st ((hother heq).symm.trans hl))
  · rw [hopened, mem_append, not_or, mem_singleton] at hl
    rw [hheard, if_neg (Ne.symm hl.2), append_nil]
    exact hfit.silent handle hl.1
  · rw [hheard]
    by_cases heq : handle = r.nextHandle
    · subst heq
      obtain rfl := Option.some.inj (hself.symm.trans hl)
      rw [if_pos rfl, hfit.silent r.nextHandle hfresh]
      exact .writing ⟨target, encoded, msg, []⟩ rfl rfl rfl rfl rfl
    · rw [if_neg (Ne.symm heq), append_nil]
      exact hfit.live handle st ((hother heq).symm.trans hl)
  · rw [hheard]
    by_cases heq : handle = r.nextHandle
    · subst heq
      exact absurd (hself.symm.trans hl) nofun
    · rw [if_neg (Ne.symm heq), append_nil]
      exact hfit.gone handle ((hother heq).symm.trans hl)

theorem StreamsFit.move {n : ℕ} {handle : Handle} {st st' : StreamState}
    (hfit : StreamsFit out r log) (hget : r.get handle = some st)
    (hmove : StreamMove out handle st st' n events) :
    StreamsFit out (r.put handle st') (log ++ events) := by
  have hheard := @heard_of_tells log events handle hmove.tells
  have hopened : openedHandles (log ++ events) = openedHandles log := by
    rw [openedHandles_append, hmove.openedHandles, append_nil]
  refine ⟨hopened ▸ hfit.handles, fun other st₁ hl ↦ ?_, fun other hl ↦ ?_, fun other st₁ hl ↦ ?_,
    fun other hl ↦ ?_⟩
  · rw [hopened]
    by_cases heq : other = handle
    · exact heq ▸ hfit.issued handle st hget
    · exact hfit.issued other st₁ ((get_put_of_ne r st' heq).symm.trans hl)
  · rw [hopened] at hl
    have hne : handle ≠ other := fun heq ↦ hl (heq ▸ hfit.issued handle st hget)
    rw [hheard, if_neg hne, append_nil]
    exact hfit.silent other hl
  · rw [hheard]
    by_cases heq : other = handle
    · subst heq
      obtain rfl := Option.some.inj ((get_put_self r other st').symm.trans hl)
      rw [if_pos rfl]
      exact (hfit.live other st hget).move hmove
    · rw [if_neg (Ne.symm heq), append_nil]
      exact hfit.live other st₁ ((get_put_of_ne r st' heq).symm.trans hl)
  · rw [hheard]
    by_cases heq : other = handle
    · subst heq
      exact absurd ((get_put_self r other st').symm.trans hl) nofun
    · rw [if_neg (Ne.symm heq), append_nil]
      exact hfit.gone other ((get_put_of_ne r st' heq).symm.trans hl)

theorem StreamsFit.close (hfit : StreamsFit out r log) (handle : Handle) :
    StreamsFit out (r.close handle) log := by
  have hother : ∀ {other st}, (r.close handle).get other = some st → r.get other = some st := by
    intro other st hl
    by_cases heq : other = handle
    · subst heq
      exact absurd ((get_close_self r other).symm.trans hl) nofun
    · exact (get_close_of_ne r heq).symm.trans hl
  exact ⟨hfit.handles, fun other st hl ↦ hfit.issued other st (hother hl), hfit.silent,
    fun other st hl ↦ hfit.live other st (hother hl), fun other _ ↦ hfit.story other⟩

theorem StreamsFit.effect {subject : Option Handle} (hfit : StreamsFit out r log)
    (heffect : Effect out r subject r' events)
    (hnext : openedHandles events ≠ [] → r.nextHandle ≠ 0) :
    StreamsFit out r' (log ++ events) := by
  cases heffect with
  | charge h =>
    rw [append_nil]
    exact hfit.charge h
  | opened hn h hroom => exact hfit.open _ (hnext (cons_ne_nil _ _)) _ _ _
  | moved hget hmove h => exact (hfit.charge h).move ((h.get _).trans hget) hmove
  | closed handle =>
    rw [append_nil]
    exact hfit.close handle

theorem StreamsFit.of_told (h : StreamsFit out r (log ++ told events)) :
    StreamsFit out r (log ++ events) := by
  have hopened : openedHandles (log ++ told events) = openedHandles (log ++ events) := by
    rw [openedHandles_append, openedHandles_told, openedHandles_append]
  have hheard : ∀ handle, heard handle (log ++ told events) = heard handle (log ++ events) :=
    fun handle ↦ by rw [heard_append, heard_told, heard_append]
  obtain ⟨handles, issued, silent, live, gone⟩ := h
  simp only [hopened, hheard] at handles issued silent live gone
  exact ⟨handles, issued, silent, live, gone⟩

end

/-! ## Who runs -/

/-- The frame of a stream that the host delivers. -/
def Mode.pending (m : Mode) (handle : Handle) : List Bytes :=
  match m.undelivered with
  | some (h, frame) => if h = handle then [frame] else []
  | none => []

/-- The frames of a stream reach the guest in order: at most the last one pulled is on its way, and
when the call ends it may be lost. -/
def Delivers (m : Mode) (log : List CallEvent) : Prop :=
  ∀ handle, ∃ frames, pulledFrames handle log = readFrames handle log ++ frames ∧
    (m ≠ .exited → frames = m.pending handle)

/-- The notes of a call: one while the guest is suspended, none while it runs or is answered. -/
def Noted (c : GuestCall) : Prop :=
  match c.mode with
  | .suspended => ∃ s, c.host.notes = [s]
  | .running | .awaiting _ | .allocating _ => c.host.notes = []
  | .exited => True

def FinishingAwaited (c : GuestCall) : Prop :=
  ∀ handle st, c.host.streams.get handle = some st → st.phase = .finishing →
    c.mode = .awaiting handle ∨ c.mode = .exited

section

variable {codec caps owned} {out : Message → Message} {c c' : GuestCall} {a : Action}
  {log events : List CallEvent} {subject : Option Handle}

theorem step_over (h : c.step codec a = some (c', events)) : c.mode ≠ .exited := by
  obtain ⟨mode, host⟩ := c
  rintro rfl
  cases a with
  | call i =>
    rw [GuestCall.step] at h
    cases h
  | resolve => cases h
  | answer output => cases h
  | allocated ptr memorySize => cases h
  | stop => cases h

theorem ModeMove.of_awaiting {handle : Handle} {m' : Mode} (h : ModeMove (.awaiting handle) m' events) :
    m' = .exited ∨ ∃ output, events = [.answered handle output] := by
  cases h with
  | answered => exact .inr ⟨_, rfl⟩
  | passed _ hawaited => exact absurd hawaited.1 nofun
  | ended => exact .inl rfl

theorem ModeMove.awaiting {handle : Handle} {m : Mode} (h : ModeMove m (.awaiting handle) events) :
    ∃ target msg body attachments, events = [.dispatched handle target msg body attachments] := by
  cases h with
  | dispatched => exact ⟨_, _, _, _, rfl⟩
  | passed _ hawaited => exact absurd hawaited.2 nofun

theorem Effect.of_dispatched {r r' : StreamRegistry} {handle : Handle} {target : String} {msg : Message}
    {body : Bytes} {attachments : Attachments}
    (h : Effect out r subject r' [.dispatched handle target msg body attachments]) :
    subject = some handle ∧ ∃ st, r'.get handle = some st ∧ st.phase = .finishing := by
  cases h with
  | moved hget hmove hcharge =>
    cases hmove with
    | dispatched => exact ⟨rfl, _, get_put_self .., rfl⟩

theorem mem_of_mem_told {e : CallEvent} (h : e ∈ told events) : e ∈ events := (mem_filter.mp h).1

theorem ModeMove.of_dispatched {m m' : Mode} {handle : Handle} {target : String} {msg : Message}
    {body : Bytes} {attachments : Attachments} (h : ModeMove m m' events)
    (hmem : .dispatched handle target msg body attachments ∈ events) :
    m = .suspended ∧ m' = .awaiting handle := by
  cases h with
  | dispatched =>
    injection mem_singleton.mp hmem with h₁
    rw [h₁]
    exact ⟨rfl, rfl⟩
  | answered | pulled | failed | resumed => exact absurd (mem_singleton.mp hmem) nofun
  | passed hevents => exact absurd (hevents _ hmem) nofun
  | ended hevents => exact absurd (hevents _ hmem) nofun

theorem awaits_of_stepMove (h : StepMove c subject c' events) : Awaits c' := by
  intro handle hmode
  obtain ⟨target, msg, body, attachments, rfl⟩ := (hmode ▸ h.mode).awaiting
  exact h.effect.of_dispatched.2

theorem StreamMove.of_finishing {handle : Handle} {n : ℕ} {st st' : StreamState}
    (hmove : StreamMove out handle st st' n events) (hphase : st'.phase = .finishing) :
    (∃ target msg body attachments,
      events = [.dispatched handle target msg body attachments]) ∨
    (st.phase = .finishing ∧ events = []) := by
  cases hmove with
  | wrote hp | attached hp => exact absurd (hp.symm.trans hphase) nofun
  | refused | drained | answered => exact absurd hphase nofun
  | dispatched => exact .inl ⟨_, _, _, _, rfl⟩
  | pulled hp | finished hp | failed hp => exact absurd (hp.symm.trans hphase) nofun
  | errorTaken | kept => exact .inr ⟨hphase, rfl⟩

theorem finishingAwaited_of_stepMove (h : StepMove c subject c' events) (hlive : c.mode ≠ .exited)
    (hawaited : FinishingAwaited c) : FinishingAwaited c' := by
  intro handle st hget hphase
  -- a stream that was finished before stays so only if the call ends here
  have hstays : c.mode = .awaiting handle → (∀ output, told events ≠ [.answered handle output]) →
      c'.mode = .awaiting handle ∨ c'.mode = .exited := by
    intro hmode hno
    rcases (hmode ▸ h.mode).of_awaiting with hover | ⟨output, rfl⟩
    · exact .inr hover
    · exact absurd rfl (hno output)
  have hbefore : ∀ {st}, c.host.streams.get handle = some st → st.phase = .finishing →
      c.mode = .awaiting handle :=
    fun hg hp ↦ (hawaited handle _ hg hp).resolve_right hlive
  rcases h.effect.of_get hget with ⟨hg, hno⟩ | ⟨-, -, target, msg, rfl⟩ | ⟨st₁, n, hg, hmove⟩
  · exact hstays (hbefore hg hphase) hno
  · exact absurd hphase nofun
  · rcases hmove.of_finishing hphase with ⟨target, msg, body, attachments, htale⟩ | ⟨hp, hnil⟩
    · exact .inl (h.mode.of_dispatched (mem_of_mem_told (htale ▸ mem_cons_self))).2
    · exact hstays (hbefore hg hp) fun _ htold ↦ absurd (hnil.symm.trans htold) nofun

theorem frames_of_passes (h : ∀ e ∈ events, e.passes = true) (handle : Handle) :
    pulledFrames handle events = [] ∧ readFrames handle events = [] := by
  refine ⟨filterMap_eq_nil_iff.mpr fun e he ↦ ?_, filterMap_eq_nil_iff.mpr fun e he ↦ ?_⟩
  · have := h e he
    cases e with
    | pulled => exact absurd this nofun
    | _ => rfl
  · have := h e he
    cases e with
    | resumed => exact absurd this nofun
    | _ => rfl

theorem delivers_of_modeMove {m m' : Mode} (h : ModeMove m m' events) (hlive : m ≠ .exited)
    (hdelivers : Delivers m log) : Delivers m' (log ++ events) := by
  intro handle
  obtain ⟨frames, hframes, hpending⟩ := hdelivers handle
  obtain rfl := hpending hlive
  rw [pulledFrames_append, readFrames_append, hframes, append_assoc]
  simp only [append_assoc]
  cases h with
  | dispatched => exact ⟨[], rfl, fun _ ↦ rfl⟩
  | answered | failed => exact ⟨[], rfl, fun _ ↦ rfl⟩
  | @pulled h frame =>
    refine ⟨(Mode.allocating (.frame h frame)).pending handle, ?_, fun _ ↦ rfl⟩
    by_cases heq : h = handle <;>
      simp [Mode.pending, Mode.undelivered, pulledFrames, readFrames, heq]
  | @resumed h value frame =>
    refine ⟨[], ?_, fun _ ↦ rfl⟩
    by_cases heq : h = handle <;>
      simp [Mode.pending, Mode.undelivered, pulledFrames, readFrames, heq]
  | passed hevents hawaited hundelivered =>
    obtain ⟨hpulled, hread⟩ := frames_of_passes hevents handle
    rw [hpulled, hread]
    refine ⟨m.pending handle, by rw [append_nil, nil_append], fun _ ↦ ?_⟩
    rw [Mode.pending, Mode.pending, hundelivered]
  | ended hevents =>
    obtain ⟨hpulled, hread⟩ := frames_of_passes hevents handle
    rw [hpulled, hread]
    exact ⟨m.pending handle, by rw [append_nil, nil_append], fun hne ↦ absurd rfl hne⟩

theorem noted_of_notes (hnotes : c.host.notes = []) (hmode : c.mode ≠ .suspended) : Noted c := by
  rw [Noted]
  split
  · exact absurd ‹_› hmode
  · exact hnotes
  · exact hnotes
  · exact hnotes
  · trivial

/-- A step keeps the notes in order, and one that suspends the guest leaves a note about the stream
it is about. -/
theorem noted_step (hnoted : Noted c) (h : c.step codec a = some (c', events)) :
    Noted c' ∧ (c'.mode = .suspended → c'.host.notes = [c.subject a]) := by
  obtain ⟨mode, host⟩ := c
  cases a with
  | call i =>
    rw [GuestCall.step] at h
    have hnotes := @callImport_notes host codec i
    dsimp only at h
    generalize callImport codec host i = result at h hnotes
    obtain ⟨result, host', events'⟩ := result
    rcases mode with _ | _ | handle | delivery | _ <;> rcases result with value | _ | _ <;>
      dsimp only at h <;> try cases h
    · exact ⟨(hnotes hnoted).2 (by simp), by simp⟩
    · have hone := (hnotes hnoted).1 rfl
      exact ⟨⟨_, hone⟩, fun _ ↦ hone⟩
    · exact ⟨trivial, by simp⟩
    · exact ⟨(hnotes hnoted).2 (by simp), by simp⟩
    · exact ⟨trivial, by simp⟩
    · exact ⟨trivial, by simp⟩
  | resolve =>
    rw [GuestCall.step] at h
    rcases mode with _ | _ | handle | delivery | _ <;> dsimp only at h <;> try cases h
    obtain ⟨s, hs⟩ := hnoted
    have hnotes := @resolvePending_notes host codec s hs
    have hmode := @resolvePending_mode host codec
    obtain ⟨rfl, rfl⟩ := Prod.mk.inj (Option.some.inj h)
    exact ⟨noted_of_notes hnotes hmode, fun hs ↦ absurd hs hmode⟩
  | answer output =>
    rw [GuestCall.step] at h
    rcases mode with _ | _ | handle | delivery | _ <;> dsimp only at h <;> try cases h
    obtain ⟨rfl, rfl⟩ := Prod.mk.inj (Option.some.inj h)
    split
    · exact ⟨hnoted, by simp⟩
    · exact ⟨hnoted, by simp⟩
  | allocated ptr memorySize =>
    rw [GuestCall.step] at h
    rcases mode with _ | _ | handle | delivery | _ <;> dsimp only at h <;> try cases h
    split_ifs at h
    · obtain ⟨rfl, rfl⟩ := Prod.mk.inj (Option.some.inj h)
      exact ⟨hnoted, by simp⟩
    · obtain ⟨rfl, rfl⟩ := Prod.mk.inj (Option.some.inj h)
      exact ⟨trivial, by simp⟩
  | stop =>
    rw [GuestCall.step] at h
    split_ifs at h
    obtain ⟨rfl, rfl⟩ := Prod.mk.inj (Option.some.inj h)
    exact ⟨trivial, by simp⟩

end

/-! ## Runs keep all of it -/

/-- What holds in every state of a run. -/
structure Protocol (c : GuestCall) (log : List CallEvent) : Prop where
  capabilities : c.host.capabilities = caps
  hostOwnedMeta : c.host.hostOwnedMeta = owned
  awaits : Awaits c
  finishing : FinishingAwaited c
  delivers : Delivers c.mode log
  noted : Noted c

section

variable {codec caps owned} {P : GuestCall → Action → Prop} {c c' : GuestCall} {a : Action}
  {log events : List CallEvent} {maxHostBytes maxLiveStreams : ℕ}

theorem Protocol.stepMove (h : Protocol caps owned c log)
    (hstep : c.step codec a = some (c', events)) : StepMove c (c.subject a) c' events :=
  step_spec h.awaits hstep

theorem Protocol.effect (h : Protocol caps owned c log)
    (hstep : c.step codec a = some (c', events)) :
    Effect (outgoing caps owned) c.host.streams (c.subject a) c'.host.streams (told events) := by
  have heffect := (h.stepMove hstep).effect
  rwa [h.capabilities, h.hostOwnedMeta] at heffect

theorem Protocol.step (h : Protocol caps owned c log)
    (hstep : c.step codec a = some (c', events)) : Protocol caps owned c' (log ++ events) where
  capabilities := (h.stepMove hstep).capabilities.trans h.capabilities
  hostOwnedMeta := (h.stepMove hstep).hostOwnedMeta.trans h.hostOwnedMeta
  awaits := awaits_of_stepMove (h.stepMove hstep)
  finishing := finishingAwaited_of_stepMove (h.stepMove hstep) (step_over hstep) h.finishing
  delivers := delivers_of_modeMove (h.stepMove hstep).mode (step_over hstep) h.delivers
  noted := (noted_step h.noted hstep).1

theorem RunWhere.protocol (hrun : RunWhere codec caps owned P maxHostBytes maxLiveStreams c log) :
    Protocol caps owned c log := by
  induction hrun with
  | start =>
    exact ⟨rfl, rfl, nofun, nofun, fun _ ↦ ⟨[], rfl, fun _ ↦ rfl⟩, rfl⟩
  | step _ _ hstep ih => exact ih.step hstep

/-! What a step tells about its action. -/

theorem Effect.subject_of_opened {out : Message → Message} {r r' : StreamRegistry}
    {subject : Option Handle} (h : Effect out r subject r' events)
    (hopened : openedHandles events ≠ []) : subject = none := by
  cases h with
  | opened => rfl
  | charge | closed => exact absurd rfl hopened
  | moved _ hmove => exact absurd hmove.openedHandles hopened

theorem opened_of_step (h : c.step codec a = some (c', events))
    (hopened : openedHandles events ≠ []) : ∃ name msg, a = .call (.streamInit name msg) := by
  cases a with
  | call i =>
    have hsubject := (step_call_spec h).effect.subject_of_opened
      (by rwa [openedHandles_told])
    cases i with
    | streamInit name msg => exact ⟨name, msg, rfl⟩
    | loadAsset id =>
      rw [step_call_events h, callImport] at hopened
      split at hopened <;> exact absurd rfl hopened
    | streamWriteChunk | streamAttach | streamFinish | streamReadChunk | streamTakeError
    | streamClose => cases hsubject
  | resolve =>
    obtain ⟨mode, host⟩ := c
    rw [GuestCall.step] at h
    rcases mode with _ | _ | handle | delivery | _ <;> dsimp only at h <;> try cases h
    have hresolved := @resolvePending_events host codec
    rw [Option.some.inj h] at hresolved
    cases hresolved <;> exact absurd rfl hopened
  | answer output =>
    obtain ⟨mode, host⟩ := c
    rw [GuestCall.step] at h
    rcases mode with _ | _ | handle | delivery | _ <;> dsimp only at h <;> try cases h
    rw [installAnswer] at h
    split at h <;> cases h <;> exact absurd rfl hopened
  | allocated ptr memorySize =>
    obtain ⟨mode, host⟩ := c
    rw [GuestCall.step] at h
    rcases mode with _ | _ | handle | delivery | _ <;> dsimp only at h <;> try cases h
    rcases delivery with ⟨handle, frame⟩ | bytes <;> split_ifs at h <;> cases h <;>
      exact absurd rfl hopened
  | stop =>
    rw [GuestCall.step] at h
    split_ifs at h
    cases h
    exact absurd rfl hopened

theorem dispatched_of_step {subject : Option Handle} {handle : Handle} {target : String}
    {msg : Message} {body : Bytes} {attachments : Attachments}
    (hspec : StepMove c subject c' events) (h : c.step codec a = some (c', events))
    (hmem : .dispatched handle target msg body attachments ∈ events) :
    a = .resolve ∧ c.host.pendingStreamFinish = some handle := by
  have hmode : c.mode = .suspended := (hspec.mode.of_dispatched hmem).1
  obtain ⟨mode, host⟩ := c
  dsimp only at hmode
  subst hmode
  cases a with
  | resolve =>
    have hresolved := @resolvePending_events host codec
    rw [Option.some.inj h] at hresolved
    cases hresolved with
    | dispatched hslot =>
      injection mem_singleton.mp hmem with h₁
      exact ⟨rfl, h₁ ▸ hslot⟩
    | nothing => exact absurd hmem not_mem_nil
    | pulled | finished | failed => exact absurd (mem_singleton.mp hmem) nofun
  | stop =>
    obtain ⟨-, rfl⟩ := Prod.mk.inj (Option.some.inj h)
    exact absurd hmem not_mem_nil
  | call i | answer output | allocated ptr memorySize => cases h

end

/-! ## Runs that follow the protocol to the letter -/

/-- What a step must be for the guest to see exactly the protocol. -/
def GuestCall.Regular (c : GuestCall) : Action → Prop
  -- the counter of the handles has not come round
  | .call (.streamInit _ _) => c.host.streams.nextHandle ≠ 0
  | .call _ | .stop => True
  -- the message that is dispatched leaves the guest as the guest wrote it
  | .resolve => ∀ handle st msg, c.host.pendingStreamFinish = some handle →
    c.host.streams.get handle = some st → st.phase = .writingRequest → st.msg = some msg →
    outgoing c.host.capabilities c.host.hostOwnedMeta msg = msg
  -- the callee does not end its answer with an error that says there is none
  | .answer output => ∀ err, .error err ∈ output → err.code ≠ .ok
  -- the guest's allocator does not place an empty frame at address zero
  | .allocated ptr _ => ∀ handle frame, c.mode = .allocating (.frame handle frame) → ptr = 0 →
    frame ≠ []

section

variable {codec caps owned} {c c' : GuestCall} {a : Action} {log events : List CallEvent}
  {maxHostBytes maxLiveStreams : ℕ} {r r' : StreamRegistry} {subject : Option Handle}

/-- An effect in which messages are dispatched as they were written. -/
theorem Effect.of_eq {out out' : Message → Message} (h : Effect out r subject r' events)
    (heq : ∀ handle target msg body attachments,
      .dispatched handle target msg body attachments ∈ events →
      ∀ st msg, r.get handle = some st → st.phase = .writingRequest → st.msg = some msg →
        out msg = out' msg) : Effect out' r subject r' events := by
  cases h with
  | charge h => exact .charge h
  | opened hn h hroom => exact .opened hn h hroom
  | closed handle => exact .closed handle
  | moved hget hmove h =>
    refine .moved hget ?_ h
    cases hmove with
    | dispatched hphase hmsg =>
      rw [heq _ _ _ _ _ mem_cons_self _ _ hget hphase hmsg]
      exact .dispatched hphase hmsg
    | wrote hphase => exact .wrote hphase
    | attached hphase => exact .attached hphase
    | refused _ err => exact .refused _ err
    | drained err => exact .drained err
    | answered output hphase => exact .answered output hphase
    | pulled hphase hstream hf hc hrest => exact .pulled hphase hstream hf hc hrest
    | finished hphase hstream hf hc => exact .finished hphase hstream hf hc
    | failed hphase => exact .failed hphase
    | errorTaken => exact .errorTaken
    | kept => exact .kept

theorem regular_effect (ha : c.Regular a) (hspec : StepMove c (c.subject a) c' events)
    (hstep : c.step codec a = some (c', events)) :
    Effect id c.host.streams (c.subject a) c'.host.streams (told events) := by
  refine hspec.effect.of_eq fun handle target msg body attachments hmem st msg' hget hphase hmsg ↦ ?_
  obtain ⟨rfl, hslot⟩ := dispatched_of_step hspec hstep (mem_of_mem_told hmem)
  exact ha handle st msg' hslot hget hphase hmsg

/-- No answer that is still to be read ends with an error whose code is `ok`. -/
def HonestAnswers (r : StreamRegistry) : Prop :=
  ∀ handle st stream, r.get handle = some st → st.responseStream = some stream →
    ∀ err, .error err ∈ stream → err.code ≠ .ok

theorem StreamMove.honest {out : Message → Message} {handle : Handle} {n : ℕ}
    {st st' : StreamState} (h : StreamMove out handle st st' n events)
    (hanswer : ∀ output, .answered handle output ∈ events →
      ∀ err, .error err ∈ output → err.code ≠ .ok)
    (hst : ∀ stream, st.responseStream = some stream →
      ∀ err, .error err ∈ stream → err.code ≠ .ok) :
    ∀ stream, st'.responseStream = some stream → ∀ err, .error err ∈ stream → err.code ≠ .ok := by
  intro stream hstream
  cases h with
  | answered output =>
    obtain rfl := Option.some.inj hstream
    exact hanswer output mem_cons_self
  | pulled _ hold _ _ hrest =>
    obtain rfl := Option.some.inj hstream
    exact fun err herr ↦ hst _ hold err (hrest herr)
  | refused | drained | finished | failed => exact absurd hstream nofun
  | wrote | attached | dispatched | errorTaken | kept => exact hst stream hstream

theorem Effect.honest {out : Message → Message} (h : Effect out r subject r' events)
    (hanswer : ∀ handle output, .answered handle output ∈ events →
      ∀ err, .error err ∈ output → err.code ≠ .ok)
    (hr : HonestAnswers r) : HonestAnswers r' := by
  intro handle st stream hget hstream
  rcases h.of_get hget with ⟨hg, -⟩ | ⟨-, -, target, msg, rfl⟩ | ⟨st₁, n, hg, hmove⟩
  · exact hr handle st stream hg hstream
  · exact absurd hstream nofun
  · exact hmove.honest (hanswer handle) (hr handle st₁ · hg) stream hstream

theorem errorCodeToNeg_eq_zero {code : ErrorCode} (h : errorCodeToNeg code = 0) : code = .ok := by
  cases code <;> first | rfl | exact absurd h (by decide)

theorem step_answers {handle : Handle} {output : List StreamEvent}
    (hmode : ModeMove c.mode c'.mode events) (h : c.step codec a = some (c', events))
    (hmem : .answered handle output ∈ events) : a = .answer output := by
  have hawaiting : c.mode = .awaiting handle := by
    generalize c.mode = m, c'.mode = m' at hmode
    cases hmode with
    | answered =>
      injection mem_singleton.mp hmem with h₁
      rw [h₁]
    | dispatched | pulled | failed | resumed => exact absurd (mem_singleton.mp hmem) nofun
    | passed hevents => exact absurd (hevents _ hmem) nofun
    | ended hevents => exact absurd (hevents _ hmem) nofun
  obtain ⟨mode, host⟩ := c
  dsimp only at hawaiting
  subst hawaiting
  cases a with
  | answer output' =>
    have h := Option.some.inj h
    rw [installAnswer] at h
    split at h <;> cases h
    · exact absurd hmem not_mem_nil
    · injection mem_singleton.mp hmem with _ h₂
      rw [h₂]
  | stop =>
    obtain ⟨-, rfl⟩ := Prod.mk.inj (Option.some.inj h)
    exact absurd hmem not_mem_nil
  | call i | resolve | allocated ptr memorySize => cases h

/-- A regular step answers no read with zero, but for the end. -/
theorem nonzero_of_step (ha : c.Regular a) (hhonest : HonestAnswers c.host.streams)
    (h : c.step codec a = some (c', events)) :
    (∀ handle, .failed handle 0 ∉ events) ∧ ∀ handle frame, .resumed handle frame 0 ∉ events := by
  have hnone : events = [] →
      (∀ handle, .failed handle 0 ∉ events) ∧ ∀ handle frame, .resumed handle frame 0 ∉ events := by
    rintro rfl
    exact ⟨fun _ ↦ not_mem_nil, fun _ _ ↦ not_mem_nil⟩
  obtain ⟨mode, host⟩ := c
  cases a with
  | call i =>
    have hpasses := (@callImport_spec host codec i).passes
    rw [← step_call_events h] at hpasses
    exact ⟨fun _ hmem ↦ absurd (hpasses _ hmem) nofun, fun _ _ hmem ↦ absurd (hpasses _ hmem) nofun⟩
  | resolve =>
    rw [GuestCall.step] at h
    rcases mode with _ | _ | handle | delivery | _ <;> dsimp only at h <;> try cases h
    have hresolved := @resolvePending_events host codec
    rw [Option.some.inj h] at hresolved
    cases hresolved with
    | nothing => exact hnone rfl
    | dispatched | pulled | finished => simp
    | failed hcode =>
      refine ⟨fun handle hmem ↦ ?_, by simp⟩
      injection mem_singleton.mp hmem with _ h₂
      obtain ⟨st, stream, err, hget, hstream, herr, hok⟩ := hcode (errorCodeToNeg_eq_zero h₂.symm)
      exact hhonest _ st stream hget hstream err herr hok
  | answer output =>
    rw [GuestCall.step] at h
    rcases mode with _ | _ | handle | delivery | _ <;> dsimp only at h <;> try cases h
    rw [installAnswer] at h
    split at h <;> cases h <;> simp
  | allocated ptr memorySize =>
    rw [GuestCall.step] at h
    rcases mode with _ | _ | handle | delivery | _ <;> dsimp only at h <;> try cases h
    rcases delivery with ⟨handle, frame⟩ | bytes <;> split_ifs at h <;> cases h <;>
      try exact hnone rfl
    refine ⟨by simp, fun handle' frame' hmem ↦ ?_⟩
    injection mem_singleton.mp hmem with _ _ hvalue
    rw [packPtrLen] at hvalue
    exact ha handle frame rfl (by omega) (List.length_eq_zero_iff.mp (by omega))
  | stop =>
    rw [GuestCall.step] at h
    split_ifs at h
    cases h
    exact hnone rfl

/-- What holds in every state of a regular run. -/
structure Regular (c : GuestCall) (log : List CallEvent) : Prop where
  streams : StreamsFit id c.host.streams log
  honest : HonestAnswers c.host.streams
  nonzero : (∀ handle, .failed handle 0 ∉ log) ∧ ∀ handle frame, .resumed handle frame 0 ∉ log

theorem nextHandle_of_step (ha : c.Regular a) (h : c.step codec a = some (c', events)) :
    openedHandles (told events) ≠ [] → c.host.streams.nextHandle ≠ 0 := by
  intro hopened
  rw [openedHandles_told] at hopened
  obtain ⟨name, msg, rfl⟩ := opened_of_step h hopened
  exact ha

theorem RunWhere.regular
    (hrun : RunWhere codec caps owned GuestCall.Regular maxHostBytes maxLiveStreams c log) :
    Regular c log := by
  induction hrun with
  | start =>
    exact ⟨⟨⟨0, by decide, rfl, rfl⟩, nofun, fun _ _ ↦ rfl, nofun, fun _ _ ↦ .unopened⟩, nofun,
      fun _ ↦ not_mem_nil, fun _ _ ↦ not_mem_nil⟩
  | @step c c' a log events hrun ha hstep ih =>
    have hspec := hrun.protocol.stepMove hstep
    have heffect := regular_effect ha hspec hstep
    have hnonzero := nonzero_of_step ha ih.honest hstep
    refine ⟨(ih.streams.effect heffect (nextHandle_of_step ha hstep)).of_told,
      heffect.honest (fun handle output hmem ↦ ?_) ih.honest, ?_, ?_⟩
    · obtain rfl := step_answers hspec.mode hstep (mem_of_mem_told hmem)
      exact ha
    · exact fun handle hmem ↦ (mem_append.mp hmem).elim (ih.nonzero.1 handle) (hnonzero.1 handle)
    · exact fun handle frame hmem ↦
        (mem_append.mp hmem).elim (ih.nonzero.2 handle frame) (hnonzero.2 handle frame)

end

/-- **The streams of a call follow their protocol** in every run of regular steps. Handles are
issued once. What is heard of a stream is a story, in which the message that is dispatched is the
one the stream was opened with, and the guest is resumed with the frames of the story in order. No
read is answered with zero but for the end. No stream is finished and unanswered while the guest
runs. A step moves phases forward only, brings no handle back, and changes only the stream it is
about; the steps that go on with a suspended guest are about the same stream. -/
theorem stream_protocol (codec : GuestCodec) (caps : BlockCapabilities) (owned : HostOwnedMeta)
    (maxHostBytes maxLiveStreams : ℕ) (c : GuestCall) (log : List CallEvent)
    (hrun : RunWhere codec caps owned GuestCall.Regular maxHostBytes maxLiveStreams c log) :
    (openedHandles log).Nodup ∧
    (∀ handle, Story id handle (heard handle log)) ∧
    (∀ handle, readFrames handle log <+: pulledFrames handle log) ∧
    (∀ handle, .failed handle 0 ∉ log) ∧
    (∀ handle frame, .resumed handle frame 0 ∉ log) ∧
    (∀ handle st, c.host.streams.get handle = some st → st.phase = .finishing →
      c.mode = .awaiting handle ∨ c.mode = .exited) ∧
    ∀ a c' events, c.Regular a → c.step codec a = some (c', events) →
      (∀ handle st st', c.host.streams.get handle = some st →
        c'.host.streams.get handle = some st' → st.phase.rank ≤ st'.phase.rank) ∧
      (∀ handle, c.host.streams.get handle = none → c'.host.streams.get handle ≠ none →
        handle ∉ openedHandles log) ∧
      (∀ handle st, c.host.streams.get handle = some st → c.subject a ≠ some handle →
        c'.host.streams.get handle = some st) ∧
      (c'.mode = .suspended → c'.subject .resolve = c.subject a) ∧
      ∀ handle, c'.mode = .awaiting handle → c.subject a = some handle := by
  have hp := hrun.protocol
  have hr := hrun.regular
  refine ⟨hr.streams.nodup, hr.streams.story, fun handle ↦ ?_, hr.nonzero.1, hr.nonzero.2,
    hp.finishing, fun a c' events ha hstep ↦ ?_⟩
  · obtain ⟨frames, hframes, -⟩ := hp.delivers handle
    exact ⟨frames, hframes.symm⟩
  · have hspec := hp.stepMove hstep
    have heffect := regular_effect ha hspec hstep
    have hnext := nextHandle_of_step ha hstep
    refine ⟨fun handle st st' ↦ heffect.rank_le hr.streams hnext, fun handle hnone hlive ↦ ?_,
      fun handle st ↦ heffect.get_of_ne hr.streams hnext, fun hmode ↦ ?_, fun handle hmode ↦ ?_⟩
    · obtain ⟨rfl, hopened⟩ := heffect.get_of_none hnone hlive
      exact hr.streams.next_fresh (hnext hopened)
    · rw [GuestCall.subject, (noted_step hp.noted hstep).2 hmode]
      rfl
    · obtain ⟨target, msg, body, attachments, rfl⟩ := (hmode ▸ hspec.mode).awaiting
      exact hspec.effect.of_dispatched.1

/-! ## Runs of given actions -/

def GuestCall.steps (codec : GuestCodec) (c : GuestCall) :
    List Action → Option (GuestCall × List CallEvent)
  | [] => some (c, [])
  | a :: as =>
    match c.step codec a with
    | none => none
    | some (c', events) =>
      match c'.steps codec as with
      | none => none
      | some (c'', events') => some (c'', events ++ events')

def GuestCall.StepsMeet (codec : GuestCodec) (P : GuestCall → Action → Prop) (c : GuestCall) :
    List Action → Prop
  | [] => True
  | a :: as => P c a ∧ ∀ c' events, c.step codec a = some (c', events) → c'.StepsMeet codec P as

theorem RunWhere.steps {codec : GuestCodec} {caps : BlockCapabilities} {owned : HostOwnedMeta}
    {P : GuestCall → Action → Prop} {maxHostBytes maxLiveStreams : ℕ} {as : List Action} :
    ∀ {c c' : GuestCall} {log events : List CallEvent},
      RunWhere codec caps owned P maxHostBytes maxLiveStreams c log → c.StepsMeet codec P as →
      c.steps codec as = some (c', events) →
      RunWhere codec caps owned P maxHostBytes maxLiveStreams c' (log ++ events) := by
  induction as with
  | nil =>
    intro c c' log events hrun _ h
    obtain ⟨rfl, rfl⟩ := Prod.mk.inj (Option.some.inj h)
    rwa [append_nil]
  | cons a as ih =>
    intro c c' log events hrun has h
    rw [GuestCall.steps] at h
    split at h
    · cases h
    · rename_i c₁ events₁ hstep
      split at h
      · cases h
      · rename_i c₂ events₂ hsteps
        obtain ⟨rfl, rfl⟩ := Prod.mk.inj (Option.some.inj h)
        rw [← append_assoc]
        exact ih (hrun.step has.1 hstep) (has.2 c₁ events₁ hstep) hsteps

theorem GuestCall.StepsMeet.cons {codec : GuestCodec} {P : GuestCall → Action → Prop}
    {c c' : GuestCall} {a : Action} {as : List Action} {events : List CallEvent} (ha : P c a)
    (hstep : c.step codec a = some (c', events)) (h : c'.StepsMeet codec P as) :
    c.StepsMeet codec P (a :: as) := by
  refine ⟨ha, fun c₁ events₁ hstep₁ ↦ ?_⟩
  obtain ⟨rfl, -⟩ := Prod.mk.inj (Option.some.inj (hstep.symm.trans hstep₁))
  exact h

theorem GuestCall.stepsMeet_true (codec : GuestCodec) (c : GuestCall) (as : List Action) :
    c.StepsMeet codec (fun _ _ ↦ True) as := by
  induction as generalizing c with
  | nil => trivial
  | cons a as ih => exact ⟨trivial, fun c' _ _ ↦ ih c'⟩

def emptyEncoded : Bytes :=
  [130, 164, 107, 105, 110, 100, 160, 164, 109, 101, 116, 97, 144]

def plainCodec : GuestCodec where
  decodeMessage bytes := if bytes = emptyEncoded then some ⟨"", []⟩ else none
  decodeAttachment _ := none
  encodeError _ := none

/-- A guest opens a stream to `b`, writes a chunk, calls, and reads until the end. -/
def callingSteps : List Action :=
  [.call (.streamInit (.within [98]) (.within emptyEncoded)),
    .call (.streamWriteChunk 1 (.within [7])), .call (.streamFinish 1), .resolve,
    .answer [.chunk [5], .complete []], .call (.streamReadChunk 1), .resolve, .allocated 16 65536,
    .call (.streamReadChunk 1), .resolve]

def callingEvents : List CallEvent :=
  [.opened 1 "b" emptyEncoded ⟨"", []⟩, .wrote 1 [7], .dispatched 1 "b" ⟨"", []⟩ [7] ∅,
    .answered 1 [.chunk [5], .complete []], .pulled 1 [5], .resumed 1 [5] (16 * 2 ^ 32 + 1),
    .finished 1]

theorem stream_protocol_calling :
    (openedHandles callingEvents).Nodup ∧ Story id 1 (heard 1 callingEvents) ∧
      readFrames 1 callingEvents <+: pulledFrames 1 callingEvents ∧
      ∀ handle, .failed handle 0 ∉ callingEvents := by
  have hregular : GuestCall.StepsMeet plainCodec GuestCall.Regular
      ⟨.running, .start .unrestricted ⟨[], []⟩ 1000 10⟩ callingSteps := by
    refine .cons (by decide : (1 : Handle) ≠ 0) rfl (.cons trivial rfl (.cons trivial rfl ?_))
    refine .cons (fun handle st msg hslot hget _ hmsg ↦ ?_) rfl ?_
    · obtain rfl := Option.some.inj hslot
      obtain rfl := Option.some.inj hget
      obtain rfl := Option.some.inj hmsg
      rfl
    refine .cons (by simp [GuestCall.Regular]) rfl (.cons trivial rfl ?_)
    refine .cons (fun _ _ _ hslot ↦ nomatch hslot) rfl ?_
    refine .cons (fun _ _ _ hptr ↦ absurd hptr (by decide)) rfl ?_
    refine .cons trivial rfl ?_
    exact .cons (fun _ _ _ hslot ↦ nomatch hslot) rfl trivial
  have hsome : ∃ c, GuestCall.steps plainCodec ⟨.running, .start .unrestricted ⟨[], []⟩ 1000 10⟩
      callingSteps = some (c, callingEvents) := ⟨_, rfl⟩
  obtain ⟨c, hc⟩ := hsome
  have h := stream_protocol plainCodec .unrestricted ⟨[], []⟩ 1000 10 c callingEvents
    (RunWhere.start.steps hregular hc)
  exact ⟨h.1, h.2.1 1, h.2.2.1 1, h.2.2.2.1⟩

/-- A guest calls `b`, which answers with an error that says there is none, and reads. -/
def deniedErrorSteps : List Action :=
  [.call (.streamInit (.within [98]) (.within emptyEncoded)), .call (.streamFinish 1), .resolve,
    .answer [.error (.new .ok "")], .call (.streamReadChunk 1), .resolve]

def deniedErrorEvents : List CallEvent :=
  [.opened 1 "b" emptyEncoded ⟨"", []⟩, .dispatched 1 "b" ⟨"", []⟩ [] ∅,
    .answered 1 [.error (.new .ok "")], .failed 1 0]

/-- A read may be answered with zero, as at the end, when the answer did not complete. -/
theorem zero_before_complete :
    ¬∀ (codec : GuestCodec) (caps : BlockCapabilities) (owned : HostOwnedMeta)
      (maxHostBytes maxLiveStreams : ℕ) (c : GuestCall) (log : List CallEvent),
      Run codec caps owned maxHostBytes maxLiveStreams c log →
        ∀ handle output, .answered handle output ∈ log → .failed handle 0 ∈ log →
          answerCompletes output = true := by
  intro h
  have hrun : ∃ c, Run plainCodec .unrestricted ⟨[], []⟩ 1000 10 c deniedErrorEvents :=
    ⟨_, RunWhere.start.steps (GuestCall.stepsMeet_true _ _ deniedErrorSteps) rfl⟩
  obtain ⟨c, hrun⟩ := hrun
  have hcompletes := h plainCodec .unrestricted ⟨[], []⟩ 1000 10 c deniedErrorEvents hrun 1
    [.error (.new .ok "")] (by simp [deniedErrorEvents]) (by simp [deniedErrorEvents])
  exact absurd hcompletes (by decide)

end WaferRun.Wasm
