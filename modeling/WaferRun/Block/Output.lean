import WaferRun.Block.HttpCodec

/-!
# The output of a block

A block answers with a stream of events: body chunks and metadata, and then one terminal. The
consumer of the stream may read ahead and put events back, and may rewrite what the producer has
yet to send, without a second channel in between (`OutputStream`).

Waiting for the producer is left out: a stream is the list of events its channel will have carried
when it closes, and reading pace does not change that list. What is kept is every decision made
from the events and the order in which they are read.

The protocol says that exactly one terminal ends a stream. Consumers do not rely on it: a stream
may come from a producer that breaks the protocol, so each of them also says what it makes of a
missing terminal and of a terminal that cannot follow a body.
-/

open List

namespace WaferRun

abbrev Bytes := List UInt8

inductive ErrorCode
  | ok
  | cancelled
  | unknown
  | invalidArgument
  | deadlineExceeded
  | notFound
  | alreadyExists
  | permissionDenied
  | resourceExhausted
  | failedPrecondition
  | aborted
  | outOfRange
  | unimplemented
  | internal
  | unavailable
  | dataLoss
  | unauthenticated
deriving DecidableEq, Repr

structure WaferError where
  code : ErrorCode
  message : String
  entries : List MetaEntry
deriving DecidableEq, Repr

def WaferError.new (code : ErrorCode) (message : String) : WaferError := ⟨code, message, []⟩

structure Message where
  kind : String
  entries : List MetaEntry
deriving DecidableEq, Repr

inductive StreamEvent
  | chunk (bytes : Bytes)
  | metadata (entry : MetaEntry)
  | complete (entries : List MetaEntry)
  | error (err : WaferError)
  | drop (entries : List MetaEntry)
  | halt (body : Bytes) (entries : List MetaEntry)
  | continue (msg : Message)
deriving DecidableEq, Repr

namespace StreamEvent

def isTerminal : StreamEvent → Bool
  | chunk _ | metadata _ => false
  | complete _ | error _ | drop _ | halt .. | «continue» _ => true

def isMeta : StreamEvent → Bool
  | metadata _ => true
  | _ => false

def isChunk : StreamEvent → Bool
  | chunk _ => true
  | _ => false

def isBody (e : StreamEvent) : Bool := !e.isTerminal

end StreamEvent

/-- The consumer's end of a stream: events put back, then the events of the producer, each
rewritten as it is read. -/
structure OutputStream where
  prelude : List StreamEvent
  rewrite : StreamEvent → Option StreamEvent
  produced : List StreamEvent

namespace OutputStream

def ofEvents (events : List StreamEvent) : OutputStream := ⟨[], some, events⟩

/-- Everything that reading the stream to its end yields. -/
def events (o : OutputStream) : List StreamEvent := o.prelude ++ o.produced.filterMap o.rewrite

def nextProduced (rewrite : StreamEvent → Option StreamEvent) :
    List StreamEvent → Option (StreamEvent × List StreamEvent)
  | [] => none
  | e :: es =>
    match rewrite e with
    | some e' => some (e', es)
    | none => nextProduced rewrite es

def next (o : OutputStream) : Option (StreamEvent × OutputStream) :=
  match o.prelude with
  | e :: es => some (e, { o with prelude := es })
  | [] => (nextProduced o.rewrite o.produced).map fun (e, es) ↦ (e, { o with produced := es })

def prepend (o : OutputStream) (es : List StreamEvent) : OutputStream :=
  { o with prelude := es ++ o.prelude }

def peek (o : OutputStream) : Option StreamEvent × OutputStream :=
  match o.next with
  | none => (none, o)
  | some (e, rest) => (some e, rest.prepend [e])

def rewriteProduced (o : OutputStream) (f : StreamEvent → Option StreamEvent) : OutputStream :=
  { o with rewrite := fun e ↦ (o.rewrite e).bind f }

def readAhead (rewrite : StreamEvent → Option StreamEvent) (prelude : List StreamEvent) :
    List StreamEvent → List StreamEvent × List StreamEvent
  | [] => (prelude, [])
  | e :: es =>
    match rewrite e with
    | none => readAhead rewrite prelude es
    | some e' =>
      if e'.isMeta then readAhead rewrite (prelude ++ [e']) es else (prelude ++ [e'], es)

def splitMeta : List StreamEvent → List MetaEntry × List StreamEvent
  | .metadata entry :: es => (entry :: (splitMeta es).1, (splitMeta es).2)
  | es => ([], es)

def takeLeadingMeta (o : OutputStream) : List MetaEntry × OutputStream :=
  let (prelude, produced) :=
    if o.prelude.any fun e ↦ !e.isMeta then (o.prelude, o.produced)
    else readAhead o.rewrite o.prelude o.produced
  let (entries, prelude) := splitMeta prelude
  (entries, { o with prelude := prelude, produced := produced })

end OutputStream

/-! ## Collecting a stream -/

/-- A stream collected to its end. -/
structure BufferedResponse where
  body : Bytes
  entries : List MetaEntry
deriving DecidableEq, Repr

/-- How a collected stream ended, if not with `complete`. -/
inductive TerminalNotResponse
  | error (err : WaferError)
  | drop (entries : List MetaEntry)
  | halt (response : BufferedResponse)
  | continue (msg : Message)
  | malformed
deriving DecidableEq, Repr

def malformedError : WaferError :=
  .new .internal "stream ended without terminal event (protocol violation)"

/-- The error for a `halt` after a part of another response. -/
def haltAfterBodyError : WaferError :=
  .new .internal "Halt terminal followed Chunk or Meta events (protocol violation)"

def collectFrom (body : Bytes) (entries : List MetaEntry) (anyBodyEvent : Bool) :
    List StreamEvent → Except TerminalNotResponse BufferedResponse
  | [] => .error .malformed
  | .chunk bytes :: es => collectFrom (body ++ bytes) entries true es
  | .metadata entry :: es => collectFrom body (entries ++ [entry]) true es
  | .complete trailing :: _ => .ok ⟨body, entries ++ trailing⟩
  | .halt haltBody haltEntries :: _ =>
    if anyBodyEvent then .error (.error haltAfterBodyError)
    else .error (.halt ⟨haltBody, haltEntries⟩)
  | .error err :: _ => .error (.error err)
  | .drop dropEntries :: _ => .error (.drop dropEntries)
  | .continue msg :: _ => .error (.continue msg)

def collectBuffered (o : OutputStream) : Except TerminalNotResponse BufferedResponse :=
  collectFrom [] [] false o.events

def bodyItemsFrom (anyBodyEvent : Bool) : List StreamEvent → List (Except WaferError Bytes)
  | [] => [.error malformedError]
  | .chunk bytes :: es => .ok bytes :: bodyItemsFrom true es
  | .metadata _ :: es => bodyItemsFrom true es
  | .error err :: _ => [.error err]
  | .halt body _ :: _ =>
    if anyBodyEvent then [.error haltAfterBodyError] else if body = [] then [] else [.ok body]
  | .complete _ :: _ | .drop _ :: _ | .continue _ :: _ => []

def bodyStreamOrError (o : OutputStream) : List (Except WaferError Bytes) :=
  bodyItemsFrom false o.events

/-! ## Reading ahead -/

namespace OutputStream

theorem nextProduced_eq_some {rewrite : StreamEvent → Option StreamEvent}
    {es rest : List StreamEvent} {e : StreamEvent} (h : nextProduced rewrite es = some (e, rest)) :
    es.filterMap rewrite = e :: rest.filterMap rewrite := by
  fun_induction nextProduced rewrite es with
  | case1 => exact absurd h (by simp)
  | case2 e0 es e' he' =>
    cases h
    rw [filterMap_cons_some he']
  | case3 e0 es he ih => rw [filterMap_cons_none he, ih h]

theorem nextProduced_eq_none {rewrite : StreamEvent → Option StreamEvent}
    {es : List StreamEvent} (h : nextProduced rewrite es = none) : es.filterMap rewrite = [] := by
  fun_induction nextProduced rewrite es with
  | case1 => rfl
  | case2 => exact absurd h (by simp)
  | case3 e0 es he ih => rw [filterMap_cons_none he, ih h]

theorem events_of_next_eq_some {o rest : OutputStream} {e : StreamEvent}
    (h : o.next = some (e, rest)) : o.events = e :: rest.events := by
  unfold next at h
  split at h
  · rename_i hp
    cases h
    simp [events, hp]
  · rename_i hp
    obtain ⟨⟨e', es⟩, hn, h⟩ := Option.map_eq_some_iff.mp h
    cases h
    simp [events, hp, nextProduced_eq_some hn]

theorem events_of_next_eq_none {o : OutputStream} (h : o.next = none) : o.events = [] := by
  unfold next at h
  split at h
  · exact absurd h (by simp)
  · rename_i hp
    rw [events, hp, nextProduced_eq_none (Option.map_eq_none_iff.mp h), nil_append]

theorem events_prepend (o : OutputStream) (es : List StreamEvent) :
    (o.prepend es).events = es ++ o.events := append_assoc _ _ _

theorem events_peek (o : OutputStream) : o.peek.2.events = o.events ∧ o.peek.1 = o.events.head? := by
  unfold peek
  split
  · rename_i h
    exact ⟨rfl, by rw [events_of_next_eq_none h]; rfl⟩
  · rename_i h
    rw [events_prepend, events_of_next_eq_some h]
    exact ⟨rfl, rfl⟩

theorem readAhead_events (rewrite : StreamEvent → Option StreamEvent)
    (pre es : List StreamEvent) :
    (readAhead rewrite pre es).1 ++ (readAhead rewrite pre es).2.filterMap rewrite =
      pre ++ es.filterMap rewrite := by
  fun_induction readAhead rewrite pre es with
  | case1 pre => rfl
  | case2 pre e es he ih => rw [ih, filterMap_cons_none he]
  | case3 pre e es e' he hm ih => rw [ih, filterMap_cons_some he, append_assoc]; rfl
  | case4 pre e es e' he hm => rw [filterMap_cons_some he, append_assoc]; rfl

theorem splitMeta_append (es : List StreamEvent) :
    (splitMeta es).1.map .metadata ++ (splitMeta es).2 = es := by
  fun_induction splitMeta es with
  | case1 entry es ih => simpa using ih
  | case2 => rfl

theorem events_takeLeadingMeta (o : OutputStream) :
    o.takeLeadingMeta.1.map .metadata ++ o.takeLeadingMeta.2.events = o.events := by
  unfold takeLeadingMeta
  simp only [events]
  rw [← append_assoc, splitMeta_append]
  split
  · rfl
  · exact readAhead_events _ _ _

end OutputStream

end WaferRun
