import WaferRun.Block.Output

/-!
# Opening a response

A transport decides from the leading metadata of a stream whether to serve it as it is produced or
to collect it first (`declaresStreaming`). A streamed response may declare the length of its body.
The declaration is checked against the first chunk before the head is sent, and the body then
enforces it item by item (`StreamedBody.pollNext`), so that the transport needs no counter of its
own: the chunk that completes the length is held back until the terminal shows that nothing follows.
-/

namespace WaferRun

open Text

def streamMarkerValue : String := "1"

def defaultStreamedContentType : String := "application/octet-stream"

def metaGet (entries : List MetaEntry) (key : String) : Option String :=
  (entries.find? fun e ↦ e.key = key).map MetaEntry.value

def isStreamingContentType (contentType : String) : Bool :=
  let lower := asciiLower contentType.toList
  "text/event-stream".toList.isPrefixOf lower || "application/octet-stream".toList.isPrefixOf lower

def isContentTypeEntry (e : MetaEntry) : Bool :=
  e.key = metaRespContentType ||
    (metaRespHeaderPrefix.toList.isPrefixOf e.key.toList &&
      eqIgnoreAsciiCase (e.key.toList.drop metaRespHeaderPrefix.toList.length)
        "content-type".toList)

def leadingContentType (entries : List MetaEntry) : Option String :=
  (entries.reverse.find? isContentTypeEntry).map MetaEntry.value

def hasStreamMarker (entries : List MetaEntry) : Bool :=
  metaGet entries metaRespStream = some streamMarkerValue

def declaresStreaming (entries : List MetaEntry) : Bool :=
  hasStreamMarker entries || (leadingContentType entries).any isStreamingContentType

/-! ## The head -/

def responseMetaParts : List MetaEntry → Except InvalidResponseMeta (List ResponseMetaPart)
  | [] => .ok []
  | e :: es =>
    match classifyResponseMeta e with
    | .ok part => (responseMetaParts es).map fun parts ↦ part.toList ++ parts
    | .error invalid =>
      if invalid.kind = .transportOwned then responseMetaParts es else .error invalid

def putHeaderPair (name value : String) : List (String × String) → List (String × String)
  | [] => [(name, value)]
  | h :: hs =>
    if eqIgnoreAsciiCase h.1.toList name.toList then (name, value) :: hs
    else h :: putHeaderPair name value hs

def addPart (headers : List (String × String)) : ResponseMetaPart → List (String × String)
  | .status _ => headers
  | .setCookie v => headers ++ [("Set-Cookie", v)]
  | .contentType v => putHeaderPair "Content-Type" v headers
  | .header name v => putHeaderPair name v headers

def headersFromMeta (entries : List MetaEntry) :
    Except InvalidResponseMeta (List (String × String)) :=
  (responseMetaParts entries).map fun parts ↦ parts.foldl addPart []

def resolveStatus (entries : List MetaEntry) (default : ℕ) : ℕ :=
  (((metaGet entries metaRespStatus).bind fun code ↦ parseU16 code.toList).filter
    fun code ↦ 100 ≤ code ∧ code ≤ 999).getD default

def contentLengthInvalid : InvalidResponseMeta :=
  ⟨metaRespContentLength, "content length is not a decimal u64", .unsendable⟩

def bodyExceedsContentLength : InvalidResponseMeta :=
  ⟨metaRespContentLength, "the body is longer than its declared content length", .unsendable⟩

def decimalValue (digits : List Char) : ℕ :=
  digits.foldl (fun n c ↦ 10 * n + (c.toNat - '0'.toNat)) 0

def contentLength (entries : List MetaEntry) : Except InvalidResponseMeta (Option ℕ) :=
  match metaGet entries metaRespContentLength with
  | none => .ok none
  | some value =>
    if value.toList = [] ∨ ¬value.toList.all Char.isDigit then .error contentLengthInvalid
    else if decimalValue value.toList < 2 ^ 64 then .ok (some (decimalValue value.toList))
    else .error contentLengthInvalid

def unsendableResponseMeta (entries : List MetaEntry) : List MetaEntry :=
  (entries.filter fun e ↦
    match classifyResponseMeta e with
    | .ok (some (.header name _)) =>
      !isListed bodyResponseHeaders name.toList &&
        !eqIgnoreAsciiCase name.toList "cache-control".toList &&
        !eqIgnoreAsciiCase name.toList "expires".toList
    | _ => false) ++
  [⟨metaRespHeaderPrefix ++ "Cache-Control", "no-store"⟩]

def unsendableStream (entries : List MetaEntry) : OutputStream :=
  .ofEvents [.error ⟨.internal, "internal server error", unsendableResponseMeta entries⟩]

/-! ## The body -/

/-- The body of a streamed response: the events still to be read, `none` once it has ended, the
bytes still owed, and the chunk that completed the declared length. -/
structure StreamedBody where
  output : Option (List StreamEvent)
  remaining : Option ℕ
  held : Option Bytes
deriving DecidableEq

def overrunError : WaferError :=
  .new .internal "the streamed body overran its declared content length"

def shortError (short : ℕ) : WaferError :=
  .new .internal
    ("the streamed body ended " ++ toString short ++ " bytes short of its declared content length")

def cannotFollowError (terminal : String) : WaferError :=
  .new .internal ("a " ++ terminal ++ " terminal cannot follow a streamed body")

def StreamedBody.ended (remaining : Option ℕ) (held : Option Bytes) : StreamedBody :=
  ⟨none, remaining, held⟩

def pollEvents (remaining : Option ℕ) (held : Option Bytes) :
    List StreamEvent → Option (Except WaferError Bytes) × StreamedBody
  | .chunk bytes :: es =>
    match remaining with
    | none => (some (.ok bytes), ⟨some es, none, held⟩)
    | some left =>
      -- an empty chunk changes nothing, before or after the length is met
      if bytes = [] then pollEvents (some left) held es
      else if left < bytes.length then (some (.error overrunError), .ended remaining held)
      else if left = bytes.length then pollEvents (some 0) (some bytes) es
      else (some (.ok bytes), ⟨some es, some (left - bytes.length), held⟩)
  | .metadata _ :: es => pollEvents remaining held es
  | .complete _ :: _ =>
    match held, remaining with
    | some last, _ => (some (.ok last), .ended remaining none)
    | none, some (short + 1) => (some (.error (shortError (short + 1))), .ended remaining none)
    | none, _ => (none, .ended remaining none)
  | .error err :: _ => (some (.error err), .ended remaining held)
  | .halt _ _ :: _ => (some (.error (cannotFollowError "Halt")), .ended remaining held)
  | .drop _ :: _ => (some (.error (cannotFollowError "Drop")), .ended remaining held)
  | .continue _ :: _ => (some (.error (cannotFollowError "Continue")), .ended remaining held)
  | [] => (some (.error malformedError), .ended remaining held)

def StreamedBody.pollNext (this : StreamedBody) : Option (Except WaferError Bytes) × StreamedBody :=
  match this.output with
  | none => (none, this)
  | some es => pollEvents this.remaining this.held es

structure StreamedHttpResponse where
  status : ℕ
  headers : List (String × String)
  contentLength : Option ℕ
  body : StreamedBody

inductive OpenedResponse
  | streamed (response : StreamedHttpResponse)
  | buffered (output : OutputStream)

inductive DeclaredLength
  | fits
  | exceeded (invalid : InvalidResponseMeta)
  | noBody
deriving DecidableEq

def checkEmptyBody (skipped : List StreamEvent) : List StreamEvent →
    DeclaredLength × List StreamEvent
  | .chunk [] :: es => checkEmptyBody skipped es
  | .metadata entry :: es => checkEmptyBody (skipped ++ [.metadata entry]) es
  | .chunk (b :: bs) :: es => (.exceeded bodyExceedsContentLength, skipped ++ .chunk (b :: bs) :: es)
  | .complete entries :: es => (.fits, skipped ++ .complete entries :: es)
  | es => (.noBody, skipped ++ es)

/-- Check a declared length against what is known before the head, and return what is left to
read. -/
def checkDeclaredLength (declared : ℕ) (events : List StreamEvent) :
    DeclaredLength × List StreamEvent :=
  if 0 < declared then
    match events with
    | .chunk first :: _ =>
      if declared < first.length then (.exceeded bodyExceedsContentLength, events)
      else (.fits, events)
    | _ => (.fits, events)
  else checkEmptyBody [] events

def openStreamed (entries : List MetaEntry) (headers : List (String × String))
    (declared : Option ℕ) (events : List StreamEvent) : OpenedResponse :=
  .streamed {
    status := resolveStatus entries 200
    headers :=
      if headers.any fun h ↦ h.1 = "Content-Type" then headers
      else headers ++ [("Content-Type", defaultStreamedContentType)]
    contentLength := declared
    body := ⟨some events, declared, none⟩ }

def openResponse (output : OutputStream) : OpenedResponse :=
  let (entries, output) := output.takeLeadingMeta
  let (first, output) := output.peek
  if !declaresStreaming entries || !first.any StreamEvent.isChunk then
    .buffered (output.prepend (entries.map .metadata))
  else
    match headersFromMeta entries, contentLength entries with
    | .error _, _ | _, .error _ => .buffered (unsendableStream entries)
    | .ok headers, .ok none => openStreamed entries headers none output.events
    | .ok headers, .ok (some declared) =>
      match checkDeclaredLength declared output.events with
      | (.fits, events) => openStreamed entries headers (some declared) events
      | (.exceeded _, _) => .buffered (unsendableStream entries)
      | (.noBody, events) =>
        .buffered ((OutputStream.ofEvents events).prepend (entries.map .metadata))

end WaferRun
