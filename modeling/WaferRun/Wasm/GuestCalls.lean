import WaferRun.Wasm.GuestEgress
import WaferRun.Wasm.StreamRegistry

/-!
# A call of a guest

While a guest runs it calls host imports. Some return at once. Others only leave a note in the host
state and suspend the guest, and the host then does what the note asks for and resumes it with the
result. To hand over bytes the host runs the guest's allocator, so the guest may call imports in the
middle of that as well, but there is nobody to resume it: what would suspend it ends the call.

`GuestCall.step` is one step of this, and the events of a step (`CallEvent`) are what the guest, the
callee and the streams have to say about it.

The guest's payloads are read with the MessagePack codec. The codecs are parameters, and so is how
the guest goes on: its imports, the pointers its allocator returns and the answers of the blocks it
calls are the choices of a run.
-/

namespace WaferRun.Wasm

open HandleTable

inductive GuestSlice
  | negative
  | outOfBounds (len : ℕ)
  | within (bytes : Bytes)
deriving DecidableEq, Repr

def GuestSlice.len : GuestSlice → Option ℕ
  | negative => none
  | outOfBounds len => some len
  | within bytes => some bytes.length

def GuestSlice.read : GuestSlice → Option Bytes
  | negative | outOfBounds _ => none
  | within bytes => some bytes

def decodeText (bytes : Bytes) : Option String := String.fromUTF8? ⟨bytes.toArray⟩

structure GuestCodec where
  decodeMessage : Bytes → Option Message
  decodeAttachment : Bytes → Option (String × Attachment)
  encodeError : WaferError → Option Bytes

structure HostState where
  capabilities : BlockCapabilities
  hostOwnedMeta : HostOwnedMeta
  streams : StreamRegistry
  pendingStreamFinish : Option Handle
  pendingStreamRead : Option Handle
  pendingStreamTakeError : Option Handle
  pendingLoadAsset : Option String

def HostState.start (capabilities : BlockCapabilities) (hostOwnedMeta : HostOwnedMeta)
    (maxHostBytes maxLiveStreams : ℕ) : HostState :=
  ⟨capabilities, hostOwnedMeta, .withLimits maxHostBytes maxLiveStreams, none, none, none, none⟩

def toOrdinal : ErrorCode → ℕ
  | .ok => 0
  | .cancelled => 1
  | .unknown => 2
  | .invalidArgument => 3
  | .deadlineExceeded => 4
  | .notFound => 5
  | .alreadyExists => 6
  | .permissionDenied => 7
  | .resourceExhausted => 8
  | .failedPrecondition => 9
  | .aborted => 10
  | .outOfRange => 11
  | .unimplemented => 12
  | .internal => 13
  | .unavailable => 14
  | .dataLoss => 15
  | .unauthenticated => 16

/-- How an import or a resumption reports an error to the guest. -/
def errorCodeToNeg (code : ErrorCode) : ℤ := -toOrdinal code

/-- What happens to the streams, as the guest and the callees see it. -/
inductive CallEvent
  | opened (handle : Handle) (target : String) (encoded : Bytes) (msg : Message)
  | wrote (handle : Handle) (chunk : Bytes)
  | attached (handle : Handle) (id : String) (att : Attachment)
  | dispatched (handle : Handle) (target : String) (msg : Message) (body : Bytes)
      (attachments : Attachments)
  | answered (handle : Handle) (output : List StreamEvent)
  | pulled (handle : Handle) (frame : Bytes)
  /-- A read was answered with the end: the guest is resumed with zero. -/
  | finished (handle : Handle)
  /-- A read was answered with an error, as the number the guest is resumed with. -/
  | failed (handle : Handle) (value : ℤ)
  /-- A read was answered with a frame, as the number the guest is resumed with. -/
  | resumed (handle : Handle) (frame : Bytes) (value : ℕ)

/-! ## Imports -/

inductive Import
  | streamInit (name msg : GuestSlice)
  | streamWriteChunk (handle : Handle) (body : GuestSlice)
  | streamAttach (handle : Handle) (payload : GuestSlice)
  | streamFinish (handle : Handle)
  | streamReadChunk (handle : Handle)
  | streamTakeError (handle : Handle)
  | streamClose (handle : Handle)
  | loadAsset (id : GuestSlice)

/-- How an import ends: it returns, it suspends the guest, or it traps. -/
inductive ImportResult
  | ret (value : ℤ)
  | suspended
  | trapped

variable (codec : GuestCodec)

def quiet (host : HostState) (result : ImportResult) :
    ImportResult × HostState × List CallEvent :=
  (result, host, [])

def openStream (host : HostState) (target : String) (encoded : Bytes) :
    ImportResult × HostState × List CallEvent :=
  match codec.decodeMessage encoded with
  | none => quiet host (.ret (errorCodeToNeg .invalidArgument))
  | some msg =>
    match host.streams.alloc (.new target msg) with
    | .error err => quiet host (.ret (errorCodeToNeg err.code))
    | .ok (handle, streams) =>
      (.ret handle.toInt64.toInt, { host with streams }, [.opened handle target encoded msg])

def streamInit (host : HostState) (name msg : GuestSlice) :
    ImportResult × HostState × List CallEvent :=
  match name.len, msg.len with
  | some nameLen, some msgLen =>
    match host.streams.chargeHostBytes nameLen with
    | .error err => quiet host (.ret (errorCodeToNeg err.code))
    | .ok streams =>
      let host := { host with streams }
      match name.read.bind decodeText with
      | none => quiet host .trapped
      | some target =>
        if host.capabilities.callableBlocks.allows target = false then
          quiet host (.ret (errorCodeToNeg .permissionDenied))
        else
          match host.streams.chargeHostBytes msgLen with
          | .error err => quiet host (.ret (errorCodeToNeg err.code))
          | .ok streams =>
            let host := { host with streams }
            match msg.read with
            | none => quiet host .trapped
            | some encoded => openStream codec host target encoded
  | _, _ => quiet host .trapped

def streamWriteChunk (host : HostState) (handle : Handle) (body : GuestSlice) :
    ImportResult × HostState × List CallEvent :=
  match body.read with
  | none => quiet host .trapped
  | some chunk =>
    match host.streams.writeChunk handle chunk with
    | (.ok (), streams) => (.ret 0, { host with streams }, [.wrote handle chunk])
    | (.error err, streams) =>
      let streams :=
        match streams.get handle with
        | some st => streams.put handle (st.recordErrorAndClose err)
        | none => streams
      quiet { host with streams } (.ret (errorCodeToNeg err.code))

def streamAttach (host : HostState) (handle : Handle) (payload : GuestSlice) :
    ImportResult × HostState × List CallEvent :=
  match payload.read with
  | none => quiet host .trapped
  | some bytes =>
    match codec.decodeAttachment bytes with
    | none => quiet host (.ret (errorCodeToNeg .invalidArgument))
    | some (id, att) =>
      match host.streams.attach handle id att with
      | (.ok (), streams) => (.ret 0, { host with streams }, [.attached handle id att])
      | (.error err, streams) =>
        quiet { host with streams } (.ret (errorCodeToNeg err.code))

def suspendOn (host : HostState) (handle : Handle) (note : HostState → HostState) :
    ImportResult × HostState × List CallEvent :=
  match host.streams.get handle with
  | none => quiet host (.ret (errorCodeToNeg .invalidArgument))
  | some _ => quiet (note host) .suspended

def callImport (host : HostState) : Import → ImportResult × HostState × List CallEvent
  | .streamInit name msg => streamInit codec host name msg
  | .streamWriteChunk handle body => streamWriteChunk host handle body
  | .streamAttach handle payload => streamAttach codec host handle payload
  | .streamFinish handle =>
    suspendOn host handle fun host ↦ { host with pendingStreamFinish := some handle }
  | .streamReadChunk handle =>
    suspendOn host handle fun host ↦ { host with pendingStreamRead := some handle }
  | .streamTakeError handle =>
    suspendOn host handle fun host ↦ { host with pendingStreamTakeError := some handle }
  | .streamClose handle => quiet { host with streams := host.streams.close handle } (.ret 0)
  | .loadAsset id =>
    match id.read.bind decodeText with
    | none => quiet host .trapped
    | some asset => quiet { host with pendingLoadAsset := some asset } .suspended

/-! ## Resumptions -/

/-- What the host is about to write into the guest's memory. -/
inductive Delivery
  | frame (handle : Handle) (bytes : Bytes)
  | error (bytes : Bytes)
deriving DecidableEq, Repr

def Delivery.bytes : Delivery → Bytes
  | frame _ bytes | error bytes => bytes

/-- Who runs: the guest, the host, a block the guest called, the guest's allocator, or nobody. -/
inductive Mode
  | running
  | suspended
  | awaiting (handle : Handle)
  | allocating (delivery : Delivery)
  | exited
deriving DecidableEq, Repr

structure GuestCall where
  mode : Mode
  host : HostState

/-- Take the request of a stream and dispatch it. What the guest wrote leaves it as any other
egress. -/
def resolveFinish (host : HostState) (handle : Handle) : GuestCall × List CallEvent :=
  match host.streams.get handle with
  | none => (⟨.running, host⟩, [])
  | some st =>
    match st.takeFinishRequest with
    | .ok ((target, msg, body), st) =>
      let (attachments, st) := st.takeAttachments
      let entries :=
        (sanitizeGuestEgress msg.entries host.capabilities host.hostOwnedMeta .call).entries
      (⟨.awaiting handle, { host with streams := host.streams.put handle st }⟩,
        [.dispatched handle target { msg with entries } body attachments])
    | .error err =>
      let st := st.takeAttachments.2.recordErrorAndClose err
      (⟨.running, { host with streams := host.streams.put handle st }⟩, [])

/-- Pull the next frame of an answer. -/
def resolveRead (host : HostState) (handle : Handle) : GuestCall × List CallEvent :=
  match host.streams.get handle with
  | none => (⟨.running, host⟩, [.failed handle (errorCodeToNeg .invalidArgument)])
  | some st =>
    let (next, st) := st.nextChunk
    let host := { host with streams := host.streams.put handle st }
    match next with
    | .ok (some frame) => (⟨.allocating (.frame handle frame), host⟩, [.pulled handle frame])
    | .ok none => (⟨.running, host⟩, [.finished handle])
    | .error err => (⟨.running, host⟩, [.failed handle (errorCodeToNeg err.code)])

def resolveTakeError (host : HostState) (handle : Handle) : GuestCall × List CallEvent :=
  match host.streams.get handle with
  | none => (⟨.running, host⟩, [])
  | some st =>
    let (last, st) := st.takeError
    let host := { host with streams := host.streams.put handle st }
    match last with
    | none => (⟨.running, host⟩, [])
    | some err =>
      match codec.encodeError err with
      | none => (⟨.exited, host⟩, [])
      | some bytes => (⟨.allocating (.error bytes), host⟩, [])

def resolvePending (host : HostState) : GuestCall × List CallEvent :=
  match host.pendingStreamFinish with
  | some handle => resolveFinish { host with pendingStreamFinish := none } handle
  | none =>
    match host.pendingStreamRead with
    | some handle => resolveRead { host with pendingStreamRead := none } handle
    | none =>
      match host.pendingStreamTakeError with
      | some handle => resolveTakeError codec { host with pendingStreamTakeError := none } handle
      | none =>
        match host.pendingLoadAsset with
        | some _ => (⟨.running, { host with pendingLoadAsset := none }⟩, [])
        -- the guest trapped by itself
        | none => (⟨.exited, host⟩, [])

def installAnswer (host : HostState) (handle : Handle) (output : List StreamEvent) :
    GuestCall × List CallEvent :=
  match host.streams.get handle with
  | none => (⟨.running, host⟩, [])
  | some st =>
    (⟨.running, { host with streams := host.streams.put handle (st.finishWithStream output) }⟩,
      [.answered handle output])

/-- A pointer and a length in one number. -/
def packPtrLen (ptr len : ℕ) : ℕ := ptr * 2 ^ 32 + len

inductive Action
  | call (i : Import)
  | resolve
  | answer (output : List StreamEvent)
  | allocated (ptr memorySize : ℕ)
  | stop

def GuestCall.step (c : GuestCall) : Action → Option (GuestCall × List CallEvent)
  | .call i =>
    let (result, host, events) := callImport codec c.host i
    match c.mode, result with
    | .running, .ret _ => some (⟨.running, host⟩, events)
    | .running, .suspended => some (⟨.suspended, host⟩, events)
    | .allocating delivery, .ret _ => some (⟨.allocating delivery, host⟩, events)
    | .running, .trapped | .allocating _, .suspended | .allocating _, .trapped =>
      some (⟨.exited, host⟩, events)
    | .suspended, _ | .awaiting _, _ | .exited, _ => none
  | .resolve =>
    match c.mode with
    | .suspended => some (resolvePending codec c.host)
    | .running | .awaiting _ | .allocating _ | .exited => none
  | .answer output =>
    match c.mode with
    | .awaiting handle => some (installAnswer c.host handle output)
    | .running | .suspended | .allocating _ | .exited => none
  | .allocated ptr memorySize =>
    match c.mode with
    | .allocating delivery =>
      if ptr + delivery.bytes.length ≤ memorySize ∧ memorySize ≤ 2 ^ 32 then
        some (⟨.running, c.host⟩,
          match delivery with
          | .frame handle bytes => [.resumed handle bytes (packPtrLen ptr bytes.length)]
          | .error _ => [])
      else some (⟨.exited, c.host⟩, [])
    | .running | .suspended | .awaiting _ | .exited => none
  | .stop => if c.mode = .exited then none else some (⟨.exited, c.host⟩, [])

end WaferRun.Wasm
