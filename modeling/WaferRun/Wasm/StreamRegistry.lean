import WaferRun.Block.Output
import WaferRun.Lib.HandleTable

/-!
# The streams of a guest call

A guest calls another block through a stream. It writes a request in chunks, finishes it, which
dispatches the call, and reads the answer frame by frame. Each stream is in one phase
(`StreamState`), and what is asked of it in another phase is refused.

The streams of one call of the guest live in a registry (`StreamRegistry`), under handles that are
issued once. The registry also keeps the budget: the bytes copied out of the guest are charged
before they are stored, up to a limit, and the number of streams is bounded.

The answer is the list of events its producer will have sent. The counter of the handles wraps and
the counter of the charged bytes saturates, as in the source.
-/

namespace WaferRun.Wasm

open HandleTable

/-- What the guest knows a stream by. -/
abbrev Handle := UInt64

/-- The largest number of bytes the host can count. -/
def usizeMax : ℕ := 2 ^ 64 - 1

inductive Phase
  | writingRequest
  | finishing
  | readingResponse
  | closed
deriving DecidableEq, Repr

def Phase.rank : Phase → ℕ
  | writingRequest => 0
  | finishing => 1
  | readingResponse => 2
  | closed => 3

/-- A named piece of binary data that travels with a call. -/
structure Attachment where
  mime : String
  bytes : Bytes
  filename : Option String
deriving DecidableEq, Repr

abbrev Attachments := Table String Attachment

structure StreamState where
  targetBlock : String
  msg : Option Message
  requestBuffer : Bytes
  attachments : Attachments
  responseStream : Option (List StreamEvent)
  lastError : Option WaferError
  rawFrames : Bool
  phase : Phase

def preconditionErr (message : String) : WaferError :=
  .new .failedPrecondition ("stream ABI misuse: " ++ message)

namespace StreamState

def new (targetBlock : String) (msg : Message) : StreamState :=
  ⟨targetBlock, some msg, [], ∅, none, none, false, .writingRequest⟩

def writeChunk (st : StreamState) (chunk : Bytes) : Except WaferError StreamState :=
  if st.phase ≠ .writingRequest then
    .error (preconditionErr "write_chunk called outside WritingRequest phase")
  else .ok { st with requestBuffer := st.requestBuffer ++ chunk }

def attach (st : StreamState) (id : String) (att : Attachment) : Except WaferError StreamState :=
  if st.phase ≠ .writingRequest then
    .error (preconditionErr "attach called outside WritingRequest phase")
  else .ok { st with attachments := st.attachments.insert id att }

def takeFinishRequest (st : StreamState) :
    Except WaferError ((String × Message × Bytes) × StreamState) :=
  if st.phase ≠ .writingRequest then
    .error (preconditionErr "finish called outside WritingRequest phase")
  else
    match st.msg with
    | none => .error (preconditionErr "finish: message already consumed")
    | some msg => .ok ((st.targetBlock, msg, st.requestBuffer),
        { st with msg := none, requestBuffer := [], phase := .finishing })

def takeAttachments (st : StreamState) : Attachments × StreamState :=
  (st.attachments, { st with attachments := ∅ })

/-- Install the answer. -/
def finishWithStream (st : StreamState) (stream : List StreamEvent) : StreamState :=
  { st with responseStream := some stream, phase := .readingResponse }

def recordErrorAndClose (st : StreamState) (err : WaferError) : StreamState :=
  { st with lastError := some err, responseStream := none, phase := .closed }

def takeError (st : StreamState) : Option WaferError × StreamState :=
  (st.lastError, { st with lastError := none })

def failed (st : StreamState) (err : WaferError) : Except WaferError (Option Bytes) × StreamState :=
  (.error err, { st with responseStream := none, lastError := some err })

def isRawMarker (e : MetaEntry) : Bool := e.key = "frame.encoding" && e.value = "raw"

/-- Read the answer up to the next frame or its end. -/
def pull (st : StreamState) : List StreamEvent → Except WaferError (Option Bytes) × StreamState
  | [] => st.failed malformedError
  | .chunk bytes :: rest => (.ok (some bytes), { st with responseStream := some rest })
  | .metadata e :: rest => pull { st with rawFrames := st.rawFrames || isRawMarker e } rest
  | .complete _ :: _ => (.ok none, { st with responseStream := none })
  | .error err :: _ => st.failed err
  | .drop _ :: _ => st.failed (.new .aborted "target block dropped the request")
  | .halt _ _ :: _ =>
    st.failed (.new .internal "unexpected Halt terminal — call_block does not bridge Halt to guest")
  | .continue msg :: _ =>
    st.failed (.new .internal ("unexpected Continue terminal (kind: " ++ msg.kind ++
      ") — call_block does not bridge Continue"))

def nextChunk (st : StreamState) : Except WaferError (Option Bytes) × StreamState :=
  if st.phase ≠ .readingResponse then
    (.error (preconditionErr "read_chunk called outside ReadingResponse phase"), st)
  else
    match st.responseStream with
    | none =>
      (.error (preconditionErr "read_chunk: response stream missing (internal invariant)"), st)
    | some stream => st.pull stream

end StreamState

structure StreamRegistry where
  /-- An `AtomicU64`, which `fetch_add` wraps. -/
  nextHandle : Handle
  states : Table Handle StreamState
  hostBytes : ℕ
  maxHostBytes : ℕ
  maxLiveStreams : ℕ

def budgetErr (max : ℕ) : WaferError :=
  .new .resourceExhausted
    ("guest exceeded per-call host-memory budget of " ++ toString max ++ " bytes")

def streamsErr (max : ℕ) : WaferError :=
  .new .resourceExhausted
    ("guest exceeded the maximum of " ++ toString max ++ " concurrent streams")

def unknownHandleErr : WaferError := .new .invalidArgument "unknown stream handle"

namespace StreamRegistry

def withLimits (maxHostBytes maxLiveStreams : ℕ) : StreamRegistry :=
  ⟨1, ∅, 0, maxHostBytes, maxLiveStreams⟩

def get (r : StreamRegistry) (handle : Handle) : Option StreamState := r.states.lookup handle

def put (r : StreamRegistry) (handle : Handle) (st : StreamState) : StreamRegistry :=
  { r with states := r.states.insert handle st }

def charged (r : StreamRegistry) (n : ℕ) : ℕ := min usizeMax (r.hostBytes + n)

def chargeHostBytes (r : StreamRegistry) (n : ℕ) : Except WaferError StreamRegistry :=
  if r.maxHostBytes < r.charged n then .error (budgetErr r.maxHostBytes)
  else .ok { r with hostBytes := r.charged n }

def alloc (r : StreamRegistry) (st : StreamState) : Except WaferError (Handle × StreamRegistry) :=
  if r.maxLiveStreams ≤ size r.states then .error (streamsErr r.maxLiveStreams)
  else .ok (r.nextHandle,
    { r with nextHandle := r.nextHandle + 1, states := r.states.insert r.nextHandle st })

/-- Charge some bytes, then change the stream under a handle. The charge stands even if the stream
then refuses the change. -/
def chargeThen (r : StreamRegistry) (handle : Handle) (n : ℕ)
    (change : StreamState → Except WaferError StreamState) :
    Except WaferError Unit × StreamRegistry :=
  match r.get handle with
  | none => (.error unknownHandleErr, r)
  | some st =>
    match r.chargeHostBytes n with
    | .error err => (.error err, r)
    | .ok r' =>
      match change st with
      | .error err => (.error err, r')
      | .ok st' => (.ok (), r'.put handle st')

def writeChunk (r : StreamRegistry) (handle : Handle) (chunk : Bytes) :
    Except WaferError Unit × StreamRegistry :=
  r.chargeThen handle chunk.length fun st ↦ st.writeChunk chunk

def attachCharge (id : String) (att : Attachment) : ℕ :=
  min usizeMax (att.bytes.length + id.utf8ByteSize)

def attach (r : StreamRegistry) (handle : Handle) (id : String) (att : Attachment) :
    Except WaferError Unit × StreamRegistry :=
  r.chargeThen handle (attachCharge id att) fun st ↦ st.attach id att

def close (r : StreamRegistry) (handle : Handle) : StreamRegistry :=
  { r with states := r.states.erase handle }

end StreamRegistry

end WaferRun.Wasm
