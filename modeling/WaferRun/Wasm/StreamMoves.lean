import WaferRun.Wasm.GuestCalls

/-!
# What a step does to the streams

A step of a call works on one stream at most. `StreamMove` lists what it can do to that stream, with
the bytes it charges and the events it gives rise to; `Effect` is the registry afterwards, and
`ModeMove` says who runs next. `step_spec` reads all of this off the code once, so that nothing
below has to look at a step again.
-/

namespace WaferRun.Wasm

open HandleTable

def answerFrames : List StreamEvent → List Bytes
  | .chunk bytes :: es => bytes :: answerFrames es
  | .metadata _ :: es => answerFrames es
  | [] | .complete _ :: _ | .error _ :: _ | .drop _ :: _ | .halt _ _ :: _ | .continue _ :: _ => []

/-- Whether the first terminal of an answer is the regular one. -/
def answerCompletes : List StreamEvent → Bool
  | .chunk _ :: es | .metadata _ :: es => answerCompletes es
  | .complete _ :: _ => true
  | [] | .error _ :: _ | .drop _ :: _ | .halt _ _ :: _ | .continue _ :: _ => false

/-! ## Moves of one stream -/

/-- The message a stream dispatches: the one it was opened with, as it leaves the guest. -/
def outgoing (caps : BlockCapabilities) (owned : HostOwnedMeta) (msg : Message) : Message :=
  { msg with entries := (sanitizeGuestEgress msg.entries caps owned .call).entries }

inductive StreamMove (out : Message → Message) (handle : Handle) :
    StreamState → StreamState → ℕ → List CallEvent → Prop
  | wrote {st : StreamState} {chunk : Bytes} (hphase : st.phase = .writingRequest) :
    StreamMove out handle st { st with requestBuffer := st.requestBuffer ++ chunk }
      chunk.length [.wrote handle chunk]
  | attached {st : StreamState} {id : String} {att : Attachment}
      (hphase : st.phase = .writingRequest) :
    StreamMove out handle st { st with attachments := st.attachments.insert id att }
      (StreamRegistry.attachCharge id att) [.attached handle id att]
  | refused {st : StreamState} (n : ℕ) (err : WaferError) :
    StreamMove out handle st (st.recordErrorAndClose err) n []
  | drained {st : StreamState} (err : WaferError) :
    StreamMove out handle st (st.takeAttachments.2.recordErrorAndClose err) 0 []
  | dispatched {st : StreamState} {msg : Message} (hphase : st.phase = .writingRequest)
      (hmsg : st.msg = some msg) :
    StreamMove out handle st
      { st with msg := none, requestBuffer := [], phase := .finishing, attachments := ∅ } 0
      [.dispatched handle st.targetBlock (out msg) st.requestBuffer st.attachments]
  | answered {st : StreamState} (output : List StreamEvent) (hphase : st.phase = .finishing) :
    StreamMove out handle st (st.finishWithStream output) 0 [.answered handle output]
  | pulled {st : StreamState} {stream rest : List StreamEvent} {raw : Bool} {frame : Bytes}
      (hphase : st.phase = .readingResponse) (hstream : st.responseStream = some stream)
      (hframes : answerFrames stream = frame :: answerFrames rest)
      (hcompletes : answerCompletes stream = answerCompletes rest) (hrest : rest ⊆ stream) :
    StreamMove out handle st { st with responseStream := some rest, rawFrames := raw } 0
      [.pulled handle frame]
  | finished {st : StreamState} {stream : List StreamEvent} {raw : Bool}
      (hphase : st.phase = .readingResponse) (hstream : st.responseStream = some stream)
      (hframes : answerFrames stream = []) (hcompletes : answerCompletes stream = true) :
    StreamMove out handle st { st with responseStream := none, rawFrames := raw } 0
      [.finished handle]
  | failed {st : StreamState} {raw : Bool} {err : WaferError}
      (hphase : st.phase = .readingResponse) :
    StreamMove out handle st
      { st with responseStream := none, rawFrames := raw, lastError := some err } 0 []
  | errorTaken {st : StreamState} : StreamMove out handle st st.takeError.2 0 []
  | kept {st : StreamState} : StreamMove out handle st st 0 []

theorem pull_spec {out : Message → Message} {handle : Handle}
    {st : StreamState} {stream : List StreamEvent} (hphase : st.phase = .readingResponse)
    (hstream : st.responseStream = some stream) :
    match st.pull stream with
    | (.ok (some frame), st') => StreamMove out handle st st' 0 [.pulled handle frame]
    | (.ok none, st') => StreamMove out handle st st' 0 [.finished handle]
    | (.error _, st') => StreamMove out handle st st' 0 [] := by
  -- the metadata that is skipped only shows in the flag for raw frames
  have key : ∀ (s : List StreamEvent) (raw : Bool),
      answerFrames s = answerFrames stream → answerCompletes s = answerCompletes stream →
      s ⊆ stream →
      match ({ st with rawFrames := raw } : StreamState).pull s with
      | (.ok (some frame), st') => StreamMove out handle st st' 0 [.pulled handle frame]
      | (.ok none, st') => StreamMove out handle st st' 0 [.finished handle]
      | (.error _, st') => StreamMove out handle st st' 0 [] := by
    intro s
    induction s with
    | nil => exact fun _ _ _ _ ↦ .failed hphase
    | cons e es ih =>
      intro raw hframes hcompletes hsub
      have hrest := List.Subset.trans (List.subset_cons_self e es) hsub
      cases e with
      | chunk bytes => exact .pulled hphase hstream hframes.symm hcompletes.symm hrest
      | metadata entry => exact ih _ hframes hcompletes hrest
      | complete entries => exact .finished hphase hstream hframes.symm hcompletes.symm
      | error err => exact .failed hphase
      | drop entries => exact .failed hphase
      | halt body entries => exact .failed hphase
      | «continue» msg => exact .failed hphase
  exact key stream st.rawFrames rfl rfl (List.Subset.refl _)

/-! ## Effects on the registry -/

inductive Charge (r : StreamRegistry) : ℕ → StreamRegistry → Prop
  | nothing : Charge r 0 r
  | some (n : ℕ) (h : r.charged n ≤ r.maxHostBytes) :
    Charge r n { r with hostBytes := r.charged n }

/-- What a step that is about one stream, or about none, can do to the registry, with the events it
gives rise to. -/
inductive Effect (out : Message → Message) (r : StreamRegistry) :
    Option Handle → StreamRegistry → List CallEvent → Prop
  | charge {subject : Option Handle} {n : ℕ} {r' : StreamRegistry} (h : Charge r n r') :
    Effect out r subject r' []
  | opened {n : ℕ} {r' : StreamRegistry} {target : String} {encoded : Bytes} {msg : Message}
      (hn : n = target.utf8ByteSize + encoded.length) (h : Charge r n r')
      (hroom : size r.states < r.maxLiveStreams) :
    Effect out r none
      { r' with
        nextHandle := r.nextHandle + 1
        states := r.states.insert r.nextHandle (.new target msg) }
      [.opened r.nextHandle target encoded msg]
  | moved {n : ℕ} {handle : Handle} {r' : StreamRegistry} {st st' : StreamState} {events : List CallEvent}
      (hget : r.get handle = some st) (hmove : StreamMove out handle st st' n events)
      (h : Charge r n r') : Effect out r (some handle) (r'.put handle st') events
  | closed (handle : Handle) : Effect out r (some handle) (r.close handle) []

section

variable {out : Message → Message} {r r' : StreamRegistry}

theorem charge_of_chargeHostBytes {n : ℕ} (h : r.chargeHostBytes n = .ok r') : Charge r n r' := by
  rw [StreamRegistry.chargeHostBytes] at h
  split_ifs at h with hover
  obtain rfl := Except.ok.inj h
  exact .some n (Nat.le_of_not_lt hover)

theorem Charge.states {n : ℕ} (h : Charge r n r') :
    r'.states = r.states ∧ r'.nextHandle = r.nextHandle ∧ r'.maxHostBytes = r.maxHostBytes ∧
      r'.maxLiveStreams = r.maxLiveStreams := by
  cases h <;> exact ⟨rfl, rfl, rfl, rfl⟩

theorem Charge.trans {n m : ℕ} {r'' : StreamRegistry} (h₁ : r.chargeHostBytes n = .ok r')
    (h₂ : r'.chargeHostBytes m = .ok r'') : Charge r (n + m) r'' := by
  have hsum : ({ r with hostBytes := r.charged n } : StreamRegistry).charged m =
      r.charged (n + m) := by
    simp only [StreamRegistry.charged]
    omega
  rw [StreamRegistry.chargeHostBytes] at h₁
  split_ifs at h₁
  obtain rfl := Except.ok.inj h₁
  rw [StreamRegistry.chargeHostBytes] at h₂
  split_ifs at h₂ with hover
  obtain rfl := Except.ok.inj h₂
  rw [hsum] at hover
  simp only [hsum]
  exact .some (n + m) (Nat.le_of_not_lt hover)

theorem chargeThen_spec {handle : Handle} {n : ℕ} {change : StreamState → Except WaferError StreamState}
    {events : List CallEvent}
    (hchange : ∀ st st', change st = .ok st' → StreamMove out handle st st' n events) :
    match r.chargeThen handle n change with
    | (.ok (), r') => Effect out r (some handle) r' events
    | (.error _, r') => (∃ m, Charge r m r' ∧ (m = 0 ∨ m = n)) := by
  rw [StreamRegistry.chargeThen]
  rcases hget : r.get handle with - | st
  · exact ⟨0, .nothing, .inl rfl⟩
  · rcases hcharge : r.chargeHostBytes n with err | r'
    · exact ⟨0, .nothing, .inl rfl⟩
    · rcases hst : change st with err | st'
      · simp only [hst]
        exact ⟨n, charge_of_chargeHostBytes hcharge, .inr rfl⟩
      · simp only [hst]
        exact .moved hget (hchange st st' hst) (charge_of_chargeHostBytes hcharge)

theorem Effect.unchanged {subject : Option Handle} : Effect out r subject r [] :=
  .charge .nothing

end

/-! ## Imports -/

/-- The events of the streams, without the numbers the guest's reads were answered with. -/
def told (events : List CallEvent) : List CallEvent :=
  events.filter fun
    | .failed _ _ | .resumed _ _ _ => false
    | _ => true

def CallEvent.passes : CallEvent → Bool
  | opened .. | wrote .. | attached .. | finished .. => true
  | dispatched .. | answered .. | pulled .. | failed .. | resumed .. => false

def Import.subject : Import → Option Handle
  | streamWriteChunk handle _ | streamAttach handle _ | streamFinish handle
  | streamReadChunk handle | streamTakeError handle | streamClose handle => some handle
  | streamInit _ _ | loadAsset _ => none

/-- What does not concern the streams is kept, and the streams change as `Effect` says. -/
structure HostMove (host : HostState) (subject : Option Handle) (host' : HostState)
    (events : List CallEvent) : Prop where
  capabilities : host'.capabilities = host.capabilities
  hostOwnedMeta : host'.hostOwnedMeta = host.hostOwnedMeta
  effect : Effect (outgoing host.capabilities host.hostOwnedMeta) host.streams subject
    host'.streams (told events)

structure ImportMove (host : HostState) (subject : Option Handle) (host' : HostState)
    (events : List CallEvent) : Prop extends HostMove host subject host' events where
  passes : ∀ e ∈ events, e.passes = true

section

variable {host : HostState} {codec : GuestCodec}

theorem utf8ByteSize_of_decodeText {bytes : Bytes} {text : String}
    (h : decodeText bytes = some text) : text.utf8ByteSize = bytes.length := by
  rw [decodeText, String.fromUTF8?] at h
  split_ifs at h
  obtain rfl := Option.some.inj h
  simp [String.fromUTF8, String.utf8ByteSize, ByteArray.size]

theorem importMove_quiet {subject : Option Handle} {host' : HostState}
    (hcaps : host'.capabilities = host.capabilities)
    (howned : host'.hostOwnedMeta = host.hostOwnedMeta)
    (heffect : Effect (outgoing host.capabilities host.hostOwnedMeta) host.streams subject
      host'.streams []) :
    ImportMove host subject host' [] :=
  ⟨⟨hcaps, howned, heffect⟩, fun _ h ↦ absurd h List.not_mem_nil⟩

theorem openStream_spec {streams : StreamRegistry} {target : String} {encoded : Bytes} {n : ℕ}
    (hn : n = target.utf8ByteSize + encoded.length) (hcharge : Charge host.streams n streams) :
    ImportMove host none (openStream codec { host with streams } target encoded).2.1
      (openStream codec { host with streams } target encoded).2.2 := by
  obtain ⟨hstates, hnext, -, hlive⟩ := hcharge.states
  rw [openStream]
  rcases codec.decodeMessage encoded with - | msg
  · exact importMove_quiet rfl rfl (.charge hcharge)
  · rcases halloc : streams.alloc (.new target msg) with err | ⟨handle, streams'⟩
    · simp only [halloc]
      exact importMove_quiet rfl rfl (.charge hcharge)
    · simp only [halloc]
      rw [StreamRegistry.alloc] at halloc
      split_ifs at halloc with hroom
      rw [hstates, hlive] at hroom
      obtain ⟨rfl, rfl⟩ := Prod.mk.inj (Except.ok.inj halloc)
      rw [hnext, hstates]
      exact ⟨⟨rfl, rfl, .opened hn hcharge (Nat.lt_of_not_le hroom)⟩, by simp [CallEvent.passes]⟩

theorem streamInit_spec (name msg : GuestSlice) :
    ImportMove host none (streamInit codec host name msg).2.1
      (streamInit codec host name msg).2.2 := by
  have hnothing : ImportMove host none host [] := importMove_quiet rfl rfl .unchanged
  rw [streamInit]
  rcases hnameLen : name.len with - | nameLen
  · exact hnothing
  rcases hmsgLen : msg.len with - | msgLen
  · exact hnothing
  rcases hname : host.streams.chargeHostBytes nameLen with err | streams
  · simp only [hname]
    exact hnothing
  have hcharge := charge_of_chargeHostBytes hname
  have hcharged : ImportMove host none { host with streams } [] :=
    importMove_quiet rfl rfl (.charge hcharge)
  simp only [hname]
  rcases htext : name.read.bind decodeText with - | target
  · exact hcharged
  dsimp only
  split_ifs
  · exact hcharged
  rcases hmsg : streams.chargeHostBytes msgLen with err | streams'
  · exact hcharged
  have hboth := Charge.trans hname hmsg
  dsimp only
  rcases hread : msg.read with - | encoded
  · exact importMove_quiet rfl rfl (.charge hboth)
  · -- what was charged is what is now stored
    refine openStream_spec ?_ hboth
    cases name with
    | negative | outOfBounds => cases htext
    | within bytes =>
      cases msg with
      | negative | outOfBounds => cases hread
      | within bytes' =>
        obtain rfl := Option.some.inj hread
        rw [← Option.some.inj hnameLen, ← Option.some.inj hmsgLen,
          utf8ByteSize_of_decodeText htext]

theorem effect_refused {streams : StreamRegistry} {handle : Handle} {n : ℕ} (err : WaferError)
    (hcharge : Charge host.streams n streams) :
    Effect (outgoing host.capabilities host.hostOwnedMeta) host.streams (some handle)
      (match streams.get handle with
        | some st => streams.put handle (st.recordErrorAndClose err)
        | none => streams) [] := by
  have hstates := hcharge.states.1
  rcases hget : streams.get handle with - | st
  · exact .charge hcharge
  · rw [StreamRegistry.get, hstates] at hget
    exact .moved hget (.refused n err) hcharge

theorem streamWriteChunk_spec (handle : Handle) (body : GuestSlice) :
    ImportMove host (some handle) (streamWriteChunk host handle body).2.1
      (streamWriteChunk host handle body).2.2 := by
  rw [streamWriteChunk]
  rcases body.read with - | chunk
  · exact importMove_quiet rfl rfl .unchanged
  have hchange : ∀ st st', StreamState.writeChunk st chunk = .ok st' →
      StreamMove (outgoing host.capabilities host.hostOwnedMeta) handle st st' chunk.length
        [.wrote handle chunk] := by
    intro st st' h
    rw [StreamState.writeChunk] at h
    split_ifs at h with hphase
    obtain rfl := Except.ok.inj h
    exact .wrote (not_not.mp hphase)
  have hspec := chargeThen_spec (r := host.streams) hchange
  dsimp only
  rw [StreamRegistry.writeChunk]
  rcases hwrite : host.streams.chargeThen handle chunk.length _ with ⟨err | ⟨⟩, streams⟩
  · simp only [hwrite] at hspec
    obtain ⟨n, hcharge, -⟩ := hspec
    exact importMove_quiet rfl rfl (effect_refused err hcharge)
  · simp only [hwrite] at hspec
    exact ⟨⟨rfl, rfl, hspec⟩, by simp [CallEvent.passes]⟩

theorem streamAttach_spec (handle : Handle) (payload : GuestSlice) :
    ImportMove host (some handle) (streamAttach codec host handle payload).2.1
      (streamAttach codec host handle payload).2.2 := by
  rw [streamAttach]
  rcases payload.read with - | bytes
  · exact importMove_quiet rfl rfl .unchanged
  dsimp only
  rcases codec.decodeAttachment bytes with - | ⟨id, att⟩
  · exact importMove_quiet rfl rfl .unchanged
  have hchange : ∀ st st', StreamState.attach st id att = .ok st' →
      StreamMove (outgoing host.capabilities host.hostOwnedMeta) handle st st'
        (StreamRegistry.attachCharge id att) [.attached handle id att] := by
    intro st st' h
    rw [StreamState.attach] at h
    split_ifs at h with hphase
    obtain rfl := Except.ok.inj h
    exact .attached (not_not.mp hphase)
  have hspec := chargeThen_spec (r := host.streams) hchange
  dsimp only
  rw [StreamRegistry.attach]
  rcases hattach : host.streams.chargeThen handle (StreamRegistry.attachCharge id att) _
    with ⟨err | ⟨⟩, streams⟩
  · simp only [hattach] at hspec
    obtain ⟨n, hcharge, -⟩ := hspec
    exact importMove_quiet rfl rfl (.charge hcharge)
  · simp only [hattach] at hspec
    exact ⟨⟨rfl, rfl, hspec⟩, by simp [CallEvent.passes]⟩

theorem suspendOn_spec (handle : Handle) {note : HostState → HostState}
    (hcaps : (note host).capabilities = host.capabilities)
    (howned : (note host).hostOwnedMeta = host.hostOwnedMeta)
    (hstreams : (note host).streams = host.streams) :
    ImportMove host (some handle) (suspendOn host handle note).2.1
      (suspendOn host handle note).2.2 := by
  rw [suspendOn]
  rcases host.streams.get handle with - | st
  · exact importMove_quiet rfl rfl .unchanged
  · have heffect : Effect (outgoing host.capabilities host.hostOwnedMeta) host.streams (some handle)
        (note host).streams [] := by
      rw [hstreams]
      exact .unchanged
    exact importMove_quiet hcaps howned heffect

theorem callImport_spec (i : Import) :
    ImportMove host i.subject (callImport codec host i).2.1 (callImport codec host i).2.2 := by
  cases i with
  | streamInit name msg => exact streamInit_spec name msg
  | streamWriteChunk handle body => exact streamWriteChunk_spec handle body
  | streamAttach handle payload => exact streamAttach_spec handle payload
  | streamFinish handle => exact suspendOn_spec handle rfl rfl rfl
  | streamReadChunk handle => exact suspendOn_spec handle rfl rfl rfl
  | streamTakeError handle => exact suspendOn_spec handle rfl rfl rfl
  | streamClose handle => exact importMove_quiet rfl rfl (.closed handle)
  | loadAsset id =>
    rw [callImport]
    rcases id.read.bind decodeText with - | asset
    · exact importMove_quiet rfl rfl .unchanged
    · exact importMove_quiet rfl rfl .unchanged

end

/-! ## Steps -/

/-- The stream whose answer the host waits for. -/
def Mode.awaited : Mode → Option Handle
  | awaiting handle => some handle
  | running | suspended | allocating _ | exited => none

/-- The frame that was pulled for the guest and has not reached it yet. -/
def Mode.undelivered : Mode → Option (Handle × Bytes)
  | allocating (.frame handle frame) => some (handle, frame)
  | allocating (.error _) | running | suspended | awaiting _ | exited => none

inductive ModeMove : Mode → Mode → List CallEvent → Prop
  | dispatched {handle : Handle} {target : String} {msg : Message} {body : Bytes}
      {attachments : Attachments} :
    ModeMove .suspended (.awaiting handle) [.dispatched handle target msg body attachments]
  | answered {handle : Handle} {output : List StreamEvent} :
    ModeMove (.awaiting handle) .running [.answered handle output]
  | pulled {handle : Handle} {frame : Bytes} :
    ModeMove .suspended (.allocating (.frame handle frame)) [.pulled handle frame]
  | failed {handle : Handle} {value : ℤ} : ModeMove .suspended .running [.failed handle value]
  | resumed {handle : Handle} {value : ℕ} {frame : Bytes} :
    ModeMove (.allocating (.frame handle frame)) .running [.resumed handle frame value]
  | passed {m m' : Mode} {events : List CallEvent} (hevents : ∀ e ∈ events, e.passes = true)
      (hawaited : m.awaited = none ∧ m'.awaited = none)
      (hundelivered : m'.undelivered = m.undelivered) :
    ModeMove m m' events
  | ended {m : Mode} {events : List CallEvent} (hevents : ∀ e ∈ events, e.passes = true) :
    ModeMove m .exited events

def HostState.notes (host : HostState) : List (Option Handle) :=
  host.pendingStreamFinish.toList.map some ++ host.pendingStreamRead.toList.map some ++
    host.pendingStreamTakeError.toList.map some ++ host.pendingLoadAsset.toList.map fun _ ↦ none

/-- The stream a step is about. -/
def GuestCall.subject (c : GuestCall) : Action → Option Handle
  | .call i => i.subject
  | .resolve => c.host.notes.head?.join
  | .answer _ => c.mode.awaited
  | .allocated _ _ | .stop => none

structure StepMove (c : GuestCall) (subject : Option Handle) (c' : GuestCall)
    (events : List CallEvent) : Prop extends HostMove c.host subject c'.host events where
  mode : ModeMove c.mode c'.mode events

/-- While an answer is awaited, its stream is there and has been finished. -/
def Awaits (c : GuestCall) : Prop :=
  ∀ handle, c.mode = .awaiting handle →
    ∃ st, c.host.streams.get handle = some st ∧ st.phase = .finishing

section

variable {host : HostState} {codec : GuestCodec}

theorem no_events : ∀ e ∈ ([] : List CallEvent), e.passes = true :=
  fun _ h ↦ absurd h List.not_mem_nil

theorem resolveFinish_spec (handle : Handle) :
    StepMove ⟨.suspended, host⟩ (some handle) (resolveFinish host handle).1
      (resolveFinish host handle).2 := by
  rw [resolveFinish]
  rcases hget : host.streams.get handle with - | st
  · exact ⟨⟨rfl, rfl, .unchanged⟩, .passed no_events ⟨rfl, rfl⟩ rfl⟩
  dsimp only
  rcases htake : st.takeFinishRequest with err | ⟨⟨target, msg, body⟩, st'⟩
  · exact ⟨⟨rfl, rfl, .moved hget (.drained err) .nothing⟩, .passed no_events ⟨rfl, rfl⟩ rfl⟩
  · rw [StreamState.takeFinishRequest] at htake
    split_ifs at htake with hphase
    rcases hmsg : st.msg with - | msg₀
    · rw [hmsg] at htake
      cases htake
    · rw [hmsg] at htake
      obtain ⟨hrequest, rfl⟩ := Prod.mk.inj (Except.ok.inj htake)
      obtain ⟨rfl, hrest⟩ := Prod.mk.inj hrequest
      obtain ⟨rfl, rfl⟩ := Prod.mk.inj hrest
      exact ⟨⟨rfl, rfl, .moved hget (.dispatched (not_not.mp hphase) hmsg) .nothing⟩, .dispatched⟩

theorem nextChunk_spec {out : Message → Message} {handle : Handle}
    {st : StreamState} {r : StreamRegistry} (hget : r.get handle = some st) :
    match st.nextChunk with
    | (.ok (some frame), st') =>
      Effect out r (some handle) (r.put handle st') [.pulled handle frame]
    | (.ok none, st') => Effect out r (some handle) (r.put handle st') [.finished handle]
    | (.error _, st') => Effect out r (some handle) (r.put handle st') [] := by
  rw [StreamState.nextChunk]
  split_ifs with hphase
  · exact .moved hget .kept .nothing
  rcases hstream : st.responseStream with - | stream
  · exact .moved hget .kept .nothing
  have hpull := @pull_spec out handle st stream (not_not.mp hphase) hstream
  dsimp only
  generalize st.pull stream = next at hpull ⊢
  rcases next with ⟨err | - | frame, st'⟩
  · exact .moved hget hpull .nothing
  · exact .moved hget hpull .nothing
  · exact .moved hget hpull .nothing

theorem resolveRead_spec (handle : Handle) :
    StepMove ⟨.suspended, host⟩ (some handle) (resolveRead host handle).1
      (resolveRead host handle).2 := by
  rw [resolveRead]
  rcases hget : host.streams.get handle with - | st
  · exact ⟨⟨rfl, rfl, .unchanged⟩, .failed⟩
  have hspec := @nextChunk_spec (outgoing host.capabilities host.hostOwnedMeta) handle st
    host.streams hget
  dsimp only
  generalize st.nextChunk = next at hspec ⊢
  rcases next with ⟨err | - | frame, st'⟩
  · exact ⟨⟨rfl, rfl, hspec⟩, .failed⟩
  · exact ⟨⟨rfl, rfl, hspec⟩, .passed (by simp [CallEvent.passes]) ⟨rfl, rfl⟩ rfl⟩
  · exact ⟨⟨rfl, rfl, hspec⟩, .pulled⟩

theorem resolveTakeError_spec (handle : Handle) :
    StepMove ⟨.suspended, host⟩ (some handle) (resolveTakeError codec host handle).1
      (resolveTakeError codec host handle).2 := by
  rw [resolveTakeError]
  rcases hget : host.streams.get handle with - | st
  · exact ⟨⟨rfl, rfl, .unchanged⟩, .passed no_events ⟨rfl, rfl⟩ rfl⟩
  have heffect : Effect (outgoing host.capabilities host.hostOwnedMeta) host.streams (some handle)
      (host.streams.put handle st.takeError.2) [] := .moved hget .errorTaken .nothing
  dsimp only
  split
  · exact ⟨⟨rfl, rfl, heffect⟩, .passed no_events ⟨rfl, rfl⟩ rfl⟩
  · split
    · exact ⟨⟨rfl, rfl, heffect⟩, .ended no_events⟩
    · exact ⟨⟨rfl, rfl, heffect⟩, .passed no_events ⟨rfl, rfl⟩ rfl⟩

theorem StepMove.of_note {host' : HostState} (hcaps : host'.capabilities = host.capabilities)
    (howned : host'.hostOwnedMeta = host.hostOwnedMeta) (hstreams : host'.streams = host.streams)
    {m : Mode} {subject : Option Handle} {c' : GuestCall} {events : List CallEvent}
    (h : StepMove ⟨m, host'⟩ subject c' events) : StepMove ⟨m, host⟩ subject c' events := by
  obtain ⟨⟨hcaps', howned', heffect⟩, hmode⟩ := h
  refine ⟨⟨hcaps'.trans hcaps, howned'.trans howned, ?_⟩, hmode⟩
  dsimp only at heffect ⊢
  rw [hcaps, howned, hstreams] at heffect
  exact heffect

theorem resolvePending_spec :
    StepMove ⟨.suspended, host⟩ host.notes.head?.join (resolvePending codec host).1
      (resolvePending codec host).2 := by
  unfold resolvePending
  split
  · rename_i handle hslot
    have hnoted : host.notes.head?.join = some handle := by
      rw [HostState.notes, hslot]
      rfl
    rw [hnoted]
    have hfinish := @resolveFinish_spec { host with pendingStreamFinish := none } handle
    refine .of_note ?_ ?_ ?_ hfinish <;> rfl
  · rename_i hfinish
    split
    · rename_i handle hslot
      have hnoted : host.notes.head?.join = some handle := by
        rw [HostState.notes, hfinish, hslot]
        rfl
      rw [hnoted]
      have hread := @resolveRead_spec { host with pendingStreamRead := none } handle
      refine .of_note ?_ ?_ ?_ hread <;> rfl
    · rename_i hread
      split
      · rename_i handle hslot
        have hnoted : host.notes.head?.join = some handle := by
          rw [HostState.notes, hfinish, hread, hslot]
          rfl
        rw [hnoted]
        have herror := @resolveTakeError_spec { host with pendingStreamTakeError := none } codec
          handle
        refine .of_note ?_ ?_ ?_ herror <;> rfl
      · split
        · exact ⟨⟨rfl, rfl, .unchanged⟩, .passed no_events ⟨rfl, rfl⟩ rfl⟩
        · exact ⟨⟨rfl, rfl, .unchanged⟩, .ended no_events⟩

/-! What a pending import gives rise to. A read that fails with the code `ok` fails with an error of
the answer. -/

theorem pull_error {st : StreamState} {stream : List StreamEvent} {err : WaferError}
    (h : (st.pull stream).1 = .error err) (hcode : err.code = .ok) :
    .error err ∈ stream := by
  induction stream generalizing st with
  | nil =>
    cases h
    cases hcode
  | cons e es ih =>
    cases e with
    | metadata entry => exact List.mem_cons_of_mem _ (ih h)
    | error err' =>
      cases h
      exact List.mem_cons_self
    | chunk bytes | complete entries => cases h
    | drop entries | halt body entries | «continue» msg =>
      cases h
      cases hcode

theorem nextChunk_error {st : StreamState} {err : WaferError} (h : st.nextChunk.1 = .error err)
    (hcode : err.code = .ok) : ∃ stream, st.responseStream = some stream ∧ .error err ∈ stream := by
  rw [StreamState.nextChunk] at h
  split_ifs at h
  · cases h
    cases hcode
  · split at h
    · cases h
      cases hcode
    · next stream hstream => exact ⟨stream, hstream, pull_error h hcode⟩

inductive Resolved (host : HostState) : List CallEvent → Prop
  | nothing : Resolved host []
  | dispatched {handle : Handle} {target : String} {msg : Message} {body : Bytes}
      {attachments : Attachments} (hslot : host.pendingStreamFinish = some handle) :
    Resolved host [.dispatched handle target msg body attachments]
  | pulled {handle : Handle} {frame : Bytes} : Resolved host [.pulled handle frame]
  | finished {handle : Handle} : Resolved host [.finished handle]
  | failed {handle : Handle} {code : ErrorCode}
      (hcode : code = .ok → ∃ st stream err, host.streams.get handle = some st ∧
        st.responseStream = some stream ∧ .error err ∈ stream ∧ err.code = .ok) :
    Resolved host [.failed handle (errorCodeToNeg code)]

theorem resolvePending_events : Resolved host (resolvePending codec host).2 := by
  unfold resolvePending
  split
  · next handle hslot =>
    rw [resolveFinish]
    split
    · exact .nothing
    · split
      · exact .dispatched hslot
      · exact .nothing
  · split
    · next handle hslot =>
      rw [resolveRead]
      rcases hget : host.streams.get handle with - | st
      · exact .failed nofun
      · dsimp only
        split
        · exact .pulled
        · exact .finished
        · next err hnext =>
          refine .failed fun hcode ↦ ?_
          obtain ⟨stream, hstream, hmem⟩ := nextChunk_error hnext hcode
          exact ⟨st, stream, err, hget, hstream, hmem, hcode⟩
    · split
      · rw [resolveTakeError]
        split
        · exact .nothing
        · dsimp only
          split
          · exact .nothing
          · split
            · exact .nothing
            · exact .nothing
      · split
        · exact .nothing
        · exact .nothing

theorem step_call_events {c c' : GuestCall} {i : Import} {events : List CallEvent}
    (h : c.step codec (.call i) = some (c', events)) :
    events = (callImport codec c.host i).2.2 := by
  obtain ⟨mode, host⟩ := c
  rw [GuestCall.step] at h
  dsimp only at h ⊢
  generalize callImport codec host i = result at h ⊢
  obtain ⟨result, host', events'⟩ := result
  rcases mode with _ | _ | handle | delivery | _ <;> rcases result with value | _ | _ <;>
    dsimp only at h <;> cases h <;> rfl

theorem step_call_spec {c c' : GuestCall} {i : Import} {events : List CallEvent}
    (h : c.step codec (.call i) = some (c', events)) : StepMove c i.subject c' events := by
  obtain ⟨mode, host⟩ := c
  have hspec := @callImport_spec host codec i
  rw [GuestCall.step] at h
  dsimp only at h
  generalize callImport codec host i = result at h hspec
  obtain ⟨result, host', events'⟩ := result
  obtain ⟨himport, hpasses⟩ := hspec
  rcases mode with _ | _ | handle | delivery | _ <;> rcases result with value | _ | _ <;>
    dsimp only at h <;> try cases h
  · exact ⟨himport, .passed hpasses ⟨rfl, rfl⟩ rfl⟩
  · exact ⟨himport, .passed hpasses ⟨rfl, rfl⟩ rfl⟩
  · exact ⟨himport, .ended hpasses⟩
  · exact ⟨himport, .passed hpasses ⟨rfl, rfl⟩ rfl⟩
  · exact ⟨himport, .ended hpasses⟩
  · exact ⟨himport, .ended hpasses⟩

/-- What a step does to the streams, and who runs next. -/
theorem step_spec {c c' : GuestCall} {a : Action} {events : List CallEvent} (hawaits : Awaits c)
    (h : c.step codec a = some (c', events)) : StepMove c (c.subject a) c' events := by
  cases a with
  | call i => exact step_call_spec h
  | resolve =>
    obtain ⟨mode, host⟩ := c
    rw [GuestCall.step] at h
    rcases mode with _ | _ | handle | delivery | _ <;> dsimp only at h <;> try cases h
    obtain ⟨rfl, rfl⟩ := Prod.mk.inj (Option.some.inj h)
    exact resolvePending_spec
  | answer output =>
    obtain ⟨mode, host⟩ := c
    rw [GuestCall.step] at h
    rcases mode with _ | _ | handle | delivery | _ <;> dsimp only at h <;> try cases h
    obtain ⟨st, hget, hphase⟩ := hawaits handle rfl
    dsimp only at hget
    rw [installAnswer, hget] at h
    obtain ⟨rfl, rfl⟩ := Prod.mk.inj (Option.some.inj h)
    exact ⟨⟨rfl, rfl, .moved hget (.answered output hphase) .nothing⟩, .answered⟩
  | allocated ptr memorySize =>
    obtain ⟨mode, host⟩ := c
    rw [GuestCall.step] at h
    rcases mode with _ | _ | handle | delivery | _ <;> dsimp only at h <;> try cases h
    split_ifs at h
    · rcases delivery with ⟨handle, frame⟩ | bytes
      · obtain ⟨rfl, rfl⟩ := Prod.mk.inj (Option.some.inj h)
        exact ⟨⟨rfl, rfl, .unchanged⟩, .resumed⟩
      · obtain ⟨rfl, rfl⟩ := Prod.mk.inj (Option.some.inj h)
        exact ⟨⟨rfl, rfl, .unchanged⟩, .passed no_events ⟨rfl, rfl⟩ rfl⟩
    · obtain ⟨rfl, rfl⟩ := Prod.mk.inj (Option.some.inj h)
      exact ⟨⟨rfl, rfl, .unchanged⟩, .ended no_events⟩
  | stop =>
    rw [GuestCall.step] at h
    split_ifs at h
    obtain ⟨rfl, rfl⟩ := Prod.mk.inj (Option.some.inj h)
    exact ⟨⟨rfl, rfl, .unchanged⟩, .ended no_events⟩

/-! ## Notes -/

def Noteless (host : HostState) (result : ImportResult × HostState × List CallEvent) : Prop :=
  result.1 ≠ .suspended ∧ result.2.1.notes = host.notes

theorem openStream_notes {streams : StreamRegistry} (target : String) (encoded : Bytes) :
    Noteless host (openStream codec { host with streams } target encoded) := by
  rw [openStream]
  split
  · exact ⟨nofun, rfl⟩
  · dsimp only
    split
    · exact ⟨nofun, rfl⟩
    · exact ⟨nofun, rfl⟩

theorem streamInit_notes (name msg : GuestSlice) :
    Noteless host (streamInit codec host name msg) := by
  rw [streamInit]
  split
  · split
    · exact ⟨fun h ↦ (by cases h), rfl⟩
    · dsimp only
      split
      · exact ⟨fun h ↦ (by cases h), rfl⟩
      · split_ifs
        · exact ⟨fun h ↦ (by cases h), rfl⟩
        · split
          · exact ⟨fun h ↦ (by cases h), rfl⟩
          · split
            · exact ⟨fun h ↦ (by cases h), rfl⟩
            · exact openStream_notes _ _
  · exact ⟨fun h ↦ (by cases h), rfl⟩

theorem streamWriteChunk_notes (handle : Handle) (body : GuestSlice) :
    Noteless host (streamWriteChunk host handle body) := by
  rw [streamWriteChunk]
  split
  · exact ⟨nofun, rfl⟩
  · split
    · exact ⟨nofun, rfl⟩
    · exact ⟨nofun, rfl⟩

theorem streamAttach_notes (handle : Handle) (payload : GuestSlice) :
    Noteless host (streamAttach codec host handle payload) := by
  rw [streamAttach]
  split
  · exact ⟨nofun, rfl⟩
  · split
    · exact ⟨nofun, rfl⟩
    · split
      · exact ⟨nofun, rfl⟩
      · exact ⟨nofun, rfl⟩

/-- The notes an import leaves: one if it suspends the guest, about the stream it is about. -/
theorem callImport_notes (i : Import) (h : host.notes = []) :
    ((callImport codec host i).1 = .suspended →
      (callImport codec host i).2.1.notes = [i.subject]) ∧
    ((callImport codec host i).1 ≠ .suspended → (callImport codec host i).2.1.notes = []) := by
  have hnoteless : ∀ {result : ImportResult × HostState × List CallEvent}, Noteless host result →
      (result.1 = .suspended → result.2.1.notes = [i.subject]) ∧
      (result.1 ≠ .suspended → result.2.1.notes = []) :=
    fun hr ↦ ⟨fun hs ↦ absurd hs hr.1, fun _ ↦ hr.2.trans h⟩
  obtain ⟨⟨⟨hfinish, hread⟩, herror⟩, hasset⟩ : ((host.pendingStreamFinish = none ∧
      host.pendingStreamRead = none) ∧ host.pendingStreamTakeError = none) ∧
      host.pendingLoadAsset = none := by
    simpa only [HostState.notes, List.append_eq_nil_iff, List.map_eq_nil_iff,
      Option.toList_eq_nil_iff] using h
  have hsuspend : ∀ {handle : Handle} {note : HostState → HostState},
      (note host).notes = [some handle] →
      ((suspendOn host handle note).1 = .suspended →
        (suspendOn host handle note).2.1.notes = [some handle]) ∧
      ((suspendOn host handle note).1 ≠ .suspended →
        (suspendOn host handle note).2.1.notes = []) := by
    intro handle note hnote
    rw [suspendOn]
    split
    · exact ⟨nofun, fun _ ↦ h⟩
    · exact ⟨fun _ ↦ hnote, fun hs ↦ absurd rfl hs⟩
  cases i with
  | streamInit name msg => exact hnoteless (streamInit_notes name msg)
  | streamWriteChunk handle body => exact hnoteless (streamWriteChunk_notes handle body)
  | streamAttach handle payload => exact hnoteless (streamAttach_notes handle payload)
  | streamFinish handle =>
    exact hsuspend (by simp only [HostState.notes, hread, herror, hasset]; rfl)
  | streamReadChunk handle =>
    exact hsuspend (by simp only [HostState.notes, hfinish, herror, hasset]; rfl)
  | streamTakeError handle =>
    exact hsuspend (by simp only [HostState.notes, hfinish, hread, hasset]; rfl)
  | streamClose handle => exact hnoteless ⟨nofun, rfl⟩
  | loadAsset id =>
    rw [callImport]
    split
    · exact ⟨nofun, fun _ ↦ h⟩
    · refine ⟨fun _ ↦ ?_, fun hs ↦ absurd rfl hs⟩
      simp only [quiet, HostState.notes, hfinish, hread, herror]
      rfl

theorem resolveFinish_notes (handle : Handle) :
    (resolveFinish host handle).1.host.notes = host.notes := by
  rw [resolveFinish]
  split
  · rfl
  · split
    · rfl
    · rfl

theorem resolveRead_notes (handle : Handle) : (resolveRead host handle).1.host.notes = host.notes := by
  rw [resolveRead]
  split
  · rfl
  · dsimp only
    split
    · rfl
    · rfl
    · rfl

theorem resolveTakeError_notes (handle : Handle) :
    (resolveTakeError codec host handle).1.host.notes = host.notes := by
  rw [resolveTakeError]
  split
  · rfl
  · dsimp only
    split
    · rfl
    · split
      · rfl
      · rfl

theorem resolvePending_mode : (resolvePending codec host).1.mode ≠ .suspended := by
  unfold resolvePending
  split
  · rw [resolveFinish]
    split
    · exact nofun
    · split
      · exact nofun
      · exact nofun
  · split
    · rw [resolveRead]
      split
      · exact nofun
      · dsimp only
        split
        · exact nofun
        · exact nofun
        · exact nofun
    · split
      · rw [resolveTakeError]
        split
        · exact nofun
        · dsimp only
          split
          · exact nofun
          · split
            · exact nofun
            · exact nofun
      · split
        · exact nofun
        · exact nofun

theorem resolvePending_notes {s : Option Handle} (h : host.notes = [s]) :
    (resolvePending codec host).1.host.notes = [] := by
  unfold resolvePending
  split
  · rename_i handle hslot
    rw [resolveFinish_notes]
    rw [HostState.notes, hslot] at h
    exact (List.cons.inj h).2
  · rename_i hfinish
    split
    · rename_i handle hslot
      rw [resolveRead_notes]
      rw [HostState.notes, hfinish, hslot] at h
      simp only [HostState.notes, hfinish]
      exact (List.cons.inj h).2
    · rename_i hread
      split
      · rename_i handle hslot
        rw [resolveTakeError_notes]
        rw [HostState.notes, hfinish, hread, hslot] at h
        simp only [HostState.notes, hfinish, hread]
        exact (List.cons.inj h).2
      · rename_i herror
        split
        · rename_i asset hslot
          simp only [HostState.notes, hfinish, hread, herror]
          rfl
        · rename_i hasset
          rw [HostState.notes, hfinish, hread, herror, hasset] at h
          exact absurd h nofun

end

end WaferRun.Wasm
