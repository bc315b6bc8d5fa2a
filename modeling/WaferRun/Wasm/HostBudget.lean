import WaferRun.Wasm.StreamProtocol

/-!
# The budget of a guest's streams

What a guest hands to its streams is copied into the host's memory, which its own memory limit does
not bound. The registry therefore charges bytes before it stores them, and refuses the charge that
would exceed the budget. The counter only grows, so that what is held never exceeds it, whatever is
replaced or dropped on the way, as long as every byte that is stored was charged.

An attachment is charged its payload and its name. Its MIME type and its file name are stored with
it and charged to nobody (`Attachment.unchargedBytes`), so the bound holds in the runs in which no
attachment is accepted that has such bytes (`streams_budgeted`), and not in others.

Sums of lengths are unbounded here. The counter saturates at `usizeMax`, so the bound says something
about as many bytes as the host can count.
-/

open List

namespace WaferRun.Wasm

open HandleTable

/-! ## What is held -/

def Attachment.unchargedBytes (att : Attachment) : ℕ :=
  att.mime.utf8ByteSize + (att.filename.map String.utf8ByteSize).getD 0

def Attachment.heldBytes (id : String) (att : Attachment) : ℕ :=
  att.bytes.length + id.utf8ByteSize + att.unchargedBytes

def StreamState.heldBytes (st : StreamState) : ℕ :=
  st.targetBlock.utf8ByteSize + st.requestBuffer.length + total Attachment.heldBytes st.attachments

/-- The length of the message a stream was opened with, as the guest encoded it. -/
def encodedBytes (handle : Handle) (log : List CallEvent) : ℕ :=
  (log.map fun
    | .opened h _ encoded _ => if h = handle then encoded.length else 0
    | _ => 0).sum

/-- The bytes the host holds for the live streams. The message of a stream counts until the stream
is dropped. -/
def heldBytes (log : List CallEvent) (r : StreamRegistry) : ℕ :=
  total (fun handle st ↦ encodedBytes handle log + st.heldBytes) r.states

def CallEvent.encodedBytes : CallEvent → ℕ
  | opened _ _ encoded _ => encoded.length
  | _ => 0

/-- The length of all messages that streams were opened with. -/
def openedBytes (log : List CallEvent) : ℕ := (log.map CallEvent.encodedBytes).sum

/-- What is held, with the messages of the streams that are gone. -/
def writtenBytes (log : List CallEvent) (r : StreamRegistry) : ℕ :=
  openedBytes log + total (fun _ st ↦ st.heldBytes) r.states

section

variable {out : Message → Message} {handle : Handle} {n : ℕ} {st st' : StreamState}
  {log events : List CallEvent}

theorem openedBytes_append :
    openedBytes (log ++ events) = openedBytes log + openedBytes events := by
  rw [openedBytes, map_append, List.sum_append]
  rfl

theorem openedBytes_told : openedBytes (told events) = openedBytes events := by
  induction events with
  | nil => rfl
  | cons e events ih =>
    rw [← singleton_append, openedBytes_append, ← ih, ← openedBytes_append]
    cases e <;> simp [told, openedBytes, CallEvent.encodedBytes]

theorem StreamMove.openedBytes (hmove : StreamMove out handle st st' n events) :
    openedBytes events = 0 := by
  cases hmove <;> rfl

/-- A message is counted for one handle at most. -/
theorem heldBytes_le_writtenBytes (r : StreamRegistry) : heldBytes log r ≤ writtenBytes log r := by
  rw [heldBytes, total_add, writtenBytes]
  refine Nat.add_le_add_right ?_ _
  induction log with
  | nil => exact (total_zero _).le
  | cons e log ih =>
    have hcons : ∀ handle, encodedBytes handle (e :: log) =
        (if e.tells handle then e.encodedBytes else 0) + encodedBytes handle log := by
      intro handle
      cases e <;> simp [encodedBytes, CallEvent.tells, CallEvent.encodedBytes]
    have hone : total (fun handle _ ↦ if e.tells handle then e.encodedBytes else 0) r.states ≤
        e.encodedBytes := by
      cases e with
      | opened h target encoded msg =>
        simpa [CallEvent.tells, CallEvent.encodedBytes] using total_single_le h encoded.length r.states
      | _ => simp [CallEvent.encodedBytes, total_zero]
    simp only [hcons, total_add]
    exact Nat.add_le_add hone ih

theorem Attachment.heldBytes_le {id : String} {att : Attachment} (h : att.unchargedBytes = 0) :
    min usizeMax (att.heldBytes id) ≤ StreamRegistry.attachCharge id att := by
  rw [Attachment.heldBytes, h, Nat.add_zero, StreamRegistry.attachCharge]

theorem StreamMove.heldBytes_le (hmove : StreamMove out handle st st' n events)
    (hfull : ∀ id att, .attached handle id att ∈ events → att.unchargedBytes = 0) (m : ℕ) :
    min usizeMax (m + st'.heldBytes) ≤ min usizeMax (m + st.heldBytes + n) := by
  cases hmove with
  | @wrote chunk =>
    simp only [StreamState.heldBytes, length_append]
    omega
  | @attached id att =>
    -- the new attachment takes the place of the one it replaces
    have hinsert : total Attachment.heldBytes (st.attachments.insert id att) ≤
        att.heldBytes id + total Attachment.heldBytes st.attachments := by
      rw [total_insert]
      exact Nat.add_le_add_left total_erase_le _
    have hcharge := @Attachment.heldBytes_le id att (hfull id att mem_cons_self)
    simp only [StreamState.heldBytes]
    omega
  | refused | finished | failed | errorTaken | kept | pulled | answered =>
    exact min_le_min_left _ (Nat.le_add_right _ _)
  | drained =>
    have hempty : total Attachment.heldBytes (∅ : Attachments) = 0 := total_empty
    simp only [StreamState.heldBytes, StreamState.takeAttachments,
      StreamState.recordErrorAndClose, hempty]
    omega
  | dispatched =>
    have hempty : total Attachment.heldBytes (∅ : Attachments) = 0 := total_empty
    simp only [StreamState.heldBytes, hempty, length_nil]
    omega

end

/-! ## The budget -/

structure WithinLimits (maxHostBytes maxLiveStreams : ℕ) (r : StreamRegistry) : Prop where
  byteLimit : r.maxHostBytes = maxHostBytes
  streamLimit : r.maxLiveStreams = maxLiveStreams
  countable : r.hostBytes ≤ usizeMax
  hostBytes : r.hostBytes ≤ maxHostBytes
  streams : size r.states ≤ maxLiveStreams

section

variable {out : Message → Message} {maxHostBytes maxLiveStreams n : ℕ}
  {r r' : StreamRegistry} {subject : Option Handle} {log events : List CallEvent}

theorem hostBytes_le_charged (h : r.hostBytes ≤ usizeMax) : r.hostBytes ≤ r.charged n :=
  le_min h (Nat.le_add_right _ _)

theorem Charge.hostBytes (h : Charge r n r') (hcountable : r.hostBytes ≤ usizeMax) :
    r'.hostBytes = r.charged n := by
  cases h with
  | nothing => exact (min_eq_right hcountable).symm
  | some => rfl

theorem Charge.withinLimits (h : Charge r n r')
    (hlimits : WithinLimits maxHostBytes maxLiveStreams r) :
    WithinLimits maxHostBytes maxLiveStreams r' := by
  cases h with
  | nothing => exact hlimits
  | some n hroom =>
    exact ⟨hlimits.byteLimit, hlimits.streamLimit, min_le_left _ _,
      hlimits.byteLimit ▸ hroom, hlimits.streams⟩

theorem Effect.withinLimits (heffect : Effect out r subject r' events)
    (hlimits : WithinLimits maxHostBytes maxLiveStreams r) :
    WithinLimits maxHostBytes maxLiveStreams r' ∧ r.hostBytes ≤ r'.hostBytes := by
  have hgrows : ∀ {n : ℕ} {r' : StreamRegistry}, Charge r n r' → r.hostBytes ≤ r'.hostBytes :=
    fun h ↦ h.hostBytes hlimits.countable ▸ hostBytes_le_charged hlimits.countable
  cases heffect with
  | charge h => exact ⟨h.withinLimits hlimits, hgrows h⟩
  | @opened n r'' target encoded msg hn h hroom =>
    obtain ⟨hb, hl, hc, hh, -⟩ := h.withinLimits hlimits
    have hgrown := hgrows h
    refine ⟨⟨hb, hl, hc, hh, ?_⟩, hgrown⟩
    rw [hlimits.streamLimit] at hroom
    rcases hget : r.states.lookup r.nextHandle with - | st
    · rw [size_insert_of_lookup_eq_none hget]
      exact hroom
    · rw [size_insert_of_lookup hget]
      exact hroom.le
  | @moved n h' r'' st st' events hget hmove h =>
    obtain ⟨hb, hl, hc, hh, hs⟩ := h.withinLimits hlimits
    have hgrown := hgrows h
    refine ⟨⟨hb, hl, hc, hh, ?_⟩, hgrown⟩
    have hget' : r''.states.lookup h' = some st := (h.get h').trans hget
    exact (size_insert_of_lookup hget').trans_le hs
  | closed h' =>
    obtain ⟨hb, hl, hc, hh, hs⟩ := hlimits
    exact ⟨⟨hb, hl, hc, hh, size_erase_le.trans hs⟩, le_rfl⟩

/-- The counter covers what was written, as long as attachments are charged in full. -/
theorem Effect.writtenBytes_le (heffect : Effect out r subject r' events)
    (hcountable : r.hostBytes ≤ usizeMax)
    (hfull : ∀ h id att, .attached h id att ∈ events → att.unchargedBytes = 0)
    (hwritten : min usizeMax (writtenBytes log r) ≤ r.hostBytes) :
    min usizeMax (writtenBytes (log ++ events) r') ≤ r'.hostBytes := by
  -- a charge covers what is written afterwards
  have hcovers : ∀ {n m : ℕ} {r' : StreamRegistry}, Charge r n r' →
      min usizeMax m ≤ min usizeMax (writtenBytes log r + n) → min usizeMax m ≤ r'.hostBytes := by
    intro n m r' h hm
    rw [h.hostBytes hcountable, StreamRegistry.charged]
    omega
  cases heffect with
  | charge h =>
    rw [append_nil, writtenBytes, h.states.1]
    exact hcovers h (min_le_min_left _ (Nat.le_add_right _ _))
  | @opened n r'' target encoded msg hn h hroom =>
    have hnew : (StreamState.new target msg).heldBytes = target.utf8ByteSize := by
      simp [StreamState.heldBytes, StreamState.new, total_empty]
    have hopened : openedBytes [.opened r.nextHandle target encoded msg] = encoded.length := by
      simp [openedBytes, CallEvent.encodedBytes]
    have hrest : total (fun _ st ↦ st.heldBytes) (r.states.erase r.nextHandle) ≤
        total (fun _ st ↦ StreamState.heldBytes st) r.states := total_erase_le
    change min usizeMax _ ≤ r''.hostBytes
    refine hcovers h (min_le_min_left _ ?_)
    rw [writtenBytes, writtenBytes, openedBytes_append, total_insert, hopened, hnew, hn]
    omega
  | @moved n h' r'' st st' events hget hmove h =>
    have hbefore : total (fun _ st ↦ st.heldBytes) r.states =
        st.heldBytes + total (fun _ st ↦ st.heldBytes) (r.states.erase h') := total_of_lookup hget
    have hafter : total (fun _ st ↦ st.heldBytes) (r''.put h' st').states =
        st'.heldBytes + total (fun _ st ↦ st.heldBytes) (r.states.erase h') := by
      rw [StreamRegistry.put, total_insert, h.states.1]
    have hmoved := hmove.heldBytes_le (fun id att ↦ hfull h' id att)
      (openedBytes log + total (fun _ st ↦ st.heldBytes) (r.states.erase h'))
    change min usizeMax _ ≤ r''.hostBytes
    refine hcovers h ?_
    rw [writtenBytes, writtenBytes, openedBytes_append, hmove.openedBytes, hbefore, hafter]
    omega
  | closed h' =>
    rw [append_nil]
    exact (min_le_min_left _ (Nat.add_le_add_left total_erase_le _)).trans hwritten

end

/-! ## Attachments -/

def CallEvent.attaches : CallEvent → Bool
  | attached _ _ _ => true
  | opened _ _ _ _ | wrote _ _ | dispatched _ _ _ _ _ | answered _ _ | pulled _ _ | finished _
  | failed _ _ | resumed _ _ _ => false

section

variable {codec : GuestCodec} {host : HostState} {c c' : GuestCall} {a : Action}
  {events : List CallEvent}

theorem streamInit_attaches (name msg : GuestSlice) :
    (streamInit codec host name msg).2.2.any CallEvent.attaches = false := by
  rw [streamInit]
  split
  · split
    · rfl
    · dsimp only
      split
      · rfl
      · split_ifs
        · rfl
        · split
          · rfl
          · split
            · rfl
            · rw [openStream]
              split
              · rfl
              · split
                · rfl
                · rfl
  · rfl

theorem streamWriteChunk_attaches (handle : Handle) (body : GuestSlice) :
    (streamWriteChunk host handle body).2.2.any CallEvent.attaches = false := by
  rw [streamWriteChunk]
  split
  · rfl
  · split
    · rfl
    · rfl

theorem suspendOn_attaches (handle : Handle) (note : HostState → HostState) :
    (suspendOn host handle note).2.2.any CallEvent.attaches = false := by
  rw [suspendOn]
  split
  · rfl
  · rfl

theorem callImport_attaches {i : Import} {handle : Handle} {id : String} {att : Attachment}
    (h : .attached handle id att ∈ (callImport codec host i).2.2) :
    ∃ payload bytes, i = .streamAttach handle payload ∧ payload.read = some bytes ∧
      codec.decodeAttachment bytes = some (id, att) := by
  have hno : ∀ {result : ImportResult × HostState × List CallEvent},
      result.2.2.any CallEvent.attaches = false → .attached handle id att ∈ result.2.2 → False :=
    fun hany hmem ↦ absurd (any_eq_true.mpr ⟨_, hmem, rfl⟩) (by rw [hany]; exact nofun)
  cases i with
  | streamInit name msg => exact (hno (streamInit_attaches name msg) h).elim
  | streamWriteChunk handle' body => exact (hno (streamWriteChunk_attaches handle' body) h).elim
  | streamAttach handle' payload =>
    rw [callImport, streamAttach] at h
    split at h
    · exact absurd h not_mem_nil
    · rename_i bytes hread
      split at h
      · exact absurd h not_mem_nil
      · rename_i id' att' hdecode
        split at h
        · injection mem_singleton.mp h with h₁ h₂ h₃
          exact ⟨payload, bytes, h₁ ▸ rfl, hread, h₂ ▸ h₃ ▸ hdecode⟩
        · exact absurd h not_mem_nil
  | streamFinish handle' => exact (hno (suspendOn_attaches handle' _) h).elim
  | streamReadChunk handle' => exact (hno (suspendOn_attaches handle' _) h).elim
  | streamTakeError handle' => exact (hno (suspendOn_attaches handle' _) h).elim
  | streamClose handle' => exact absurd h not_mem_nil
  | loadAsset asset =>
    rw [callImport] at h
    split at h
    · exact absurd h not_mem_nil
    · exact absurd h not_mem_nil

theorem resolvePending_attaches :
    (resolvePending codec host).2.any CallEvent.attaches = false := by
  have hresolved := @resolvePending_events host codec
  generalize (resolvePending codec host).2 = events at hresolved
  cases hresolved <;> rfl

/-- An attachment of a step is one the guest hands over in it. -/
theorem step_attaches {handle : Handle} {id : String} {att : Attachment}
    (hstep : c.step codec a = some (c', events)) (h : .attached handle id att ∈ events) :
    ∃ payload bytes, a = .call (.streamAttach handle payload) ∧ payload.read = some bytes ∧
      codec.decodeAttachment bytes = some (id, att) := by
  have hno : events.any CallEvent.attaches = true := any_eq_true.mpr ⟨_, h, rfl⟩
  obtain ⟨mode, host⟩ := c
  cases a with
  | call i =>
    obtain ⟨payload, bytes, rfl, hread, hdecode⟩ := callImport_attaches (step_call_events hstep ▸ h)
    exact ⟨payload, bytes, rfl, hread, hdecode⟩
  | resolve =>
    rw [GuestCall.step] at hstep
    rcases mode with _ | _ | handle | delivery | _ <;> dsimp only at hstep <;> try cases hstep
    rw [← (Prod.mk.inj (Option.some.inj hstep)).2] at hno
    cases hno.symm.trans (@resolvePending_attaches codec host)
  | answer output =>
    rw [GuestCall.step] at hstep
    rcases mode with _ | _ | handle | delivery | _ <;> dsimp only at hstep <;> try cases hstep
    rw [← (Prod.mk.inj (Option.some.inj hstep)).2] at hno
    split at hno
    · cases hno
    · cases hno
  | allocated ptr memorySize =>
    rw [GuestCall.step] at hstep
    rcases mode with _ | _ | handle | delivery | _ <;> dsimp only at hstep <;> try cases hstep
    split_ifs at hstep
    · rw [← (Prod.mk.inj (Option.some.inj hstep)).2] at hno
      split at hno
      · cases hno
      · cases hno
    · rw [← (Prod.mk.inj (Option.some.inj hstep)).2] at hno
      cases hno
  | stop =>
    rw [GuestCall.step] at hstep
    split_ifs at hstep
    rw [← (Prod.mk.inj (Option.some.inj hstep)).2] at hno
    cases hno

end

/-! ## Refusals -/

/-- The chunk, the attachment, the name, the message or the stream that is refused leaves the
counter as it was when it was refused, and the other streams alone. -/
structure RefusalsKeep (codec : GuestCodec) (host : HostState) : Prop where
  chunk : ∀ handle chunk, host.streams.maxHostBytes < host.streams.charged chunk.length →
    (streamWriteChunk host handle (.within chunk)).2.1.streams.hostBytes =
      host.streams.hostBytes ∧
    ∀ other, other ≠ handle →
      (streamWriteChunk host handle (.within chunk)).2.1.streams.get other =
        host.streams.get other
  attachment : ∀ handle bytes id att, codec.decodeAttachment bytes = some (id, att) →
    host.streams.maxHostBytes < host.streams.charged (StreamRegistry.attachCharge id att) →
    (streamAttach codec host handle (.within bytes)).2.1.streams = host.streams
  name : ∀ name msg nameLen, name.len = some nameLen →
    host.streams.maxHostBytes < host.streams.charged nameLen →
    (streamInit codec host name msg).2.1.streams = host.streams
  message : ∀ name msg nameLen msgLen streams, name.len = some nameLen → msg.len = some msgLen →
    host.streams.chargeHostBytes nameLen = .ok streams →
    streams.maxHostBytes < streams.charged msgLen →
    (streamInit codec host name msg).2.1.streams = streams
  stream : ∀ st, host.streams.maxLiveStreams ≤ size host.streams.states →
    host.streams.alloc st = .error (streamsErr host.streams.maxLiveStreams)
  opening : ∀ target encoded, host.streams.maxLiveStreams ≤ size host.streams.states →
    (openStream codec host target encoded).2.1.streams = host.streams

section

variable {r : StreamRegistry} {host : HostState} {codec : GuestCodec}

theorem chargeHostBytes_refused {n : ℕ} (h : r.maxHostBytes < r.charged n) :
    r.chargeHostBytes n = .error (budgetErr r.maxHostBytes) := by
  rw [StreamRegistry.chargeHostBytes, if_pos h]

theorem chargeThen_refused {handle : Handle} {n : ℕ} {change : StreamState → Except WaferError StreamState}
    (h : r.maxHostBytes < r.charged n) : ∃ err, r.chargeThen handle n change = (.error err, r) := by
  rw [StreamRegistry.chargeThen, chargeHostBytes_refused h]
  split
  · exact ⟨_, rfl⟩
  · exact ⟨_, rfl⟩

theorem refusalsKeep (codec : GuestCodec) (host : HostState) : RefusalsKeep codec host where
  chunk := by
    intro handle chunk hover
    obtain ⟨err, herr⟩ := @chargeThen_refused host.streams handle chunk.length
      (fun st ↦ st.writeChunk chunk) hover
    rw [streamWriteChunk, GuestSlice.read]
    dsimp only
    rw [StreamRegistry.writeChunk, herr]
    dsimp only [quiet]
    rcases hget : host.streams.get handle with - | st
    · exact ⟨rfl, fun _ _ ↦ rfl⟩
    · exact ⟨rfl, fun other hne ↦ get_put_of_ne host.streams _ hne⟩
  attachment := by
    intro handle bytes id att hdecode hover
    obtain ⟨err, herr⟩ := @chargeThen_refused host.streams handle
      (StreamRegistry.attachCharge id att) (fun st ↦ st.attach id att) hover
    rw [streamAttach, GuestSlice.read]
    dsimp only
    rw [hdecode]
    dsimp only
    rw [StreamRegistry.attach, herr]
    rfl
  name := by
    intro name msg nameLen hname hover
    rw [streamInit, hname]
    split
    · rename_i n m hn hm
      obtain rfl := Option.some.inj hn
      rw [chargeHostBytes_refused hover]
      rfl
    · rfl
  message := by
    intro name msg nameLen msgLen streams hname hmsg hcharge hover
    rw [streamInit, hname, hmsg]
    dsimp only
    rw [hcharge]
    dsimp only
    split
    · rfl
    · split_ifs
      · rfl
      · rw [chargeHostBytes_refused hover]
        rfl
  stream := by
    intro st hfull
    rw [StreamRegistry.alloc, if_pos hfull]
  opening := by
    intro target encoded hfull
    rw [openStream]
    split
    · rfl
    · rw [StreamRegistry.alloc, if_pos hfull]
      rfl

end

/-! ## Runs within the budget -/

def AttachesInFull (codec : GuestCodec) (c : GuestCall) (a : Action) : Prop :=
  ∀ handle payload bytes id att st, a = .call (.streamAttach handle payload) →
    payload.read = some bytes → codec.decodeAttachment bytes = some (id, att) →
    c.host.streams.get handle = some st → st.phase = .writingRequest →
    c.host.streams.charged (StreamRegistry.attachCharge id att) ≤ c.host.streams.maxHostBytes →
    att.unchargedBytes = 0

/-- The runs in which every attachment is charged in full. -/
abbrev FullRun (codec : GuestCodec) (caps : BlockCapabilities) (owned : HostOwnedMeta)
    (maxHostBytes maxLiveStreams : ℕ) : GuestCall → List CallEvent → Prop :=
  RunWhere codec caps owned (AttachesInFull codec) maxHostBytes maxLiveStreams

section

variable {codec : GuestCodec} {caps : BlockCapabilities} {owned : HostOwnedMeta}
  {maxHostBytes maxLiveStreams : ℕ} {c c' : GuestCall} {a : Action} {log events : List CallEvent}

theorem RunWhere.withinLimits {P : GuestCall → Action → Prop}
    (hrun : RunWhere codec caps owned P maxHostBytes maxLiveStreams c log) :
    WithinLimits maxHostBytes maxLiveStreams c.host.streams := by
  induction hrun with
  | start => exact ⟨rfl, rfl, Nat.zero_le _, Nat.zero_le _, Nat.zero_le _⟩
  | step hrun _ hstep ih => exact ((hrun.protocol.effect hstep).withinLimits ih).1

theorem Effect.of_attached {r r' : StreamRegistry} {subject : Option Handle} {handle : Handle} {id : String}
    {att : Attachment} (h : Effect out r subject r' events)
    (hmem : .attached handle id att ∈ events) (hlimit : r.hostBytes ≤ r.maxHostBytes) :
    (∃ st, r.get handle = some st ∧ st.phase = .writingRequest) ∧
      r.charged (StreamRegistry.attachCharge id att) ≤ r.maxHostBytes := by
  cases h with
  | charge | closed => exact absurd hmem not_mem_nil
  | opened => exact absurd (mem_singleton.mp hmem) nofun
  | moved hget hmove hcharge =>
    cases hmove with
    | wrote | dispatched | answered | pulled | finished =>
      exact absurd (mem_singleton.mp hmem) nofun
    | refused | drained | failed | errorTaken | kept => exact absurd hmem not_mem_nil
    | attached hphase =>
      injection mem_singleton.mp hmem with h₁ h₂ h₃
      subst h₁ h₂ h₃
      refine ⟨⟨_, hget, hphase⟩, ?_⟩
      generalize StreamRegistry.attachCharge id att = n at hcharge ⊢
      cases hcharge with
      | nothing => exact (min_le_right _ _).trans hlimit
      | some _ hroom => exact hroom

theorem RunWhere.writtenBytes_le
    (hrun : FullRun codec caps owned maxHostBytes maxLiveStreams c log) :
    min usizeMax (writtenBytes log c.host.streams) ≤ c.host.streams.hostBytes := by
  induction hrun with
  | start => exact min_le_right _ _
  | @step c c' a log events hrun hfull hstep ih =>
    have hlimits := hrun.withinLimits
    have heffect := hrun.protocol.effect hstep
    have htold : writtenBytes (log ++ events) c'.host.streams =
        writtenBytes (log ++ told events) c'.host.streams := by
      rw [writtenBytes, writtenBytes, openedBytes_append, openedBytes_append, openedBytes_told]
    rw [htold]
    refine heffect.writtenBytes_le hlimits.countable (fun handle id att hmem ↦ ?_) ih
    obtain ⟨payload, bytes, ha, hread, hdecode⟩ := step_attaches hstep (mem_of_mem_told hmem)
    obtain ⟨⟨st, hget, hphase⟩, hroom⟩ :=
      heffect.of_attached hmem (hlimits.byteLimit ▸ hlimits.hostBytes)
    exact hfull handle payload bytes id att st ha hread hdecode hget hphase hroom

end

/-- **The streams of a guest are budgeted**, in every run that charges every attachment in full: the
bytes that are held are charged, the counter stays within the budget and only grows, the streams are
limited in number, and what is refused changes nothing. -/
theorem streams_budgeted (codec : GuestCodec) (caps : BlockCapabilities) (owned : HostOwnedMeta)
    (maxHostBytes maxLiveStreams : ℕ) (c : GuestCall) (log : List CallEvent)
    (hrun : FullRun codec caps owned maxHostBytes maxLiveStreams c log) :
    min usizeMax (heldBytes log c.host.streams) ≤ c.host.streams.hostBytes ∧
      c.host.streams.hostBytes ≤ maxHostBytes ∧ size c.host.streams.states ≤ maxLiveStreams ∧
      RefusalsKeep codec c.host ∧
      ∀ a c' events, c.step codec a = some (c', events) →
        c.host.streams.hostBytes ≤ c'.host.streams.hostBytes := by
  have hlimits := hrun.withinLimits
  have hheld := min_le_min_left usizeMax (@heldBytes_le_writtenBytes log c.host.streams)
  exact ⟨hheld.trans hrun.writtenBytes_le, hlimits.hostBytes, hlimits.streams,
    refusalsKeep codec c.host,
    fun a c' events hstep ↦ ((hrun.protocol.effect hstep).withinLimits hlimits).2⟩

/-- The MessagePack encoding of three bytes, attached as `a`. -/
def plainEncoded : Bytes :=
  [146, 161, 97, 131, 164, 109, 105, 109, 101, 160, 165, 98, 121, 116, 101, 115, 147, 1, 2,
    3, 168, 102, 105, 108, 101, 110, 97, 109, 101, 192]

/-- The MessagePack encoding of no bytes of type `text/plain`, attached as `a`. -/
def typedEncoded : Bytes :=
  [146, 161, 97, 131, 164, 109, 105, 109, 101, 170, 116, 101, 120, 116, 47, 112, 108, 97,
    105, 110, 165, 98, 121, 116, 101, 115, 144, 168, 102, 105, 108, 101, 110, 97, 109, 101,
    192]

def attachingCodec (encoded : Bytes) (att : Attachment) : GuestCodec where
  decodeMessage bytes := if bytes = emptyEncoded then some ⟨"", []⟩ else none
  decodeAttachment bytes := if bytes = encoded then some ("a", att) else none
  encodeError _ := none

/-- A guest opens a stream to `b` and attaches something. -/
def attachingSteps (encoded : Bytes) : List Action :=
  [.call (.streamInit (.within [98]) (.within emptyEncoded)),
    .call (.streamAttach 1 (.within encoded))]

/-- What is heard of it. -/
def attachingEvents (att : Attachment) : List CallEvent :=
  [.opened 1 "b" emptyEncoded ⟨"", []⟩, .attached 1 "a" att]

theorem run_attaching_plain :
    ∃ c, Run (attachingCodec plainEncoded ⟨"", [1, 2, 3], none⟩) .unrestricted ⟨[], []⟩ 100 10 c
      (attachingEvents ⟨"", [1, 2, 3], none⟩) ∧ c.host.streams.hostBytes = 18 :=
  ⟨_, RunWhere.start.steps (GuestCall.stepsMeet_true _ _ (attachingSteps plainEncoded)) rfl, rfl⟩

theorem run_attaching_typed :
    ∃ c, Run (attachingCodec typedEncoded ⟨"text/plain", [], none⟩) .unrestricted ⟨[], []⟩ 100 10 c
      (attachingEvents ⟨"text/plain", [], none⟩) ∧ c.host.streams.hostBytes = 15 ∧
      heldBytes (attachingEvents ⟨"text/plain", [], none⟩) c.host.streams = 25 :=
  ⟨_, RunWhere.start.steps (GuestCall.stepsMeet_true _ _ (attachingSteps typedEncoded)) rfl, rfl,
    rfl⟩

theorem streams_budgeted_plain :
    ∃ c : GuestCall, c.host.streams.hostBytes = 18 ∧
      min usizeMax (heldBytes (attachingEvents ⟨"", [1, 2, 3], none⟩) c.host.streams) ≤
        c.host.streams.hostBytes := by
  obtain ⟨c, hrun, hbytes⟩ := run_attaching_plain
  refine ⟨c, hbytes, (streams_budgeted _ _ _ _ _ c _ (hrun.mono fun c a _ ↦ ?_)).1⟩
  intro handle payload bytes id att st _ _ h _ _ _
  dsimp only [attachingCodec] at h
  split_ifs at h
  rw [← (Prod.mk.inj (Option.some.inj h)).2]
  rfl

/-- An attachment that is stored with a MIME type escapes the budget. -/
theorem not_streams_budgeted :
    ¬∀ (codec : GuestCodec) (caps : BlockCapabilities) (owned : HostOwnedMeta)
      (maxHostBytes maxLiveStreams : ℕ) (c : GuestCall) (log : List CallEvent),
      Run codec caps owned maxHostBytes maxLiveStreams c log →
        min usizeMax (heldBytes log c.host.streams) ≤ c.host.streams.hostBytes := by
  intro h
  obtain ⟨c, hrun, hbytes, hheld⟩ := run_attaching_typed
  have hle := h _ _ _ _ _ c _ hrun
  rw [hbytes, hheld] at hle
  exact absurd hle (by decide)

end WaferRun.Wasm
