import WaferRun.Flow.RestrictiveHeaders

/-!
# How response metadata combines inside a flow

A step that responds lays its metadata over the message of the flow (`overlay`). A header is
identified by its name up to case, a cookie by its name, path and domain and not by its key, and
any other entry by its key. An entry of the response displaces what it identifies, and the flow
keeps a record of what was displaced, keyed by the key the new entry was written under.

When the flow stops early, its terminal inherits the headers and cookies the middleware left
(`carried`): an entry that a responding step wrote is replaced by what it displaced.
-/

namespace WaferRun

open Text RestrictiveHeaders

def keysOf (entries : List MetaEntry) : List String := entries.map MetaEntry.key

def isCookie (e : MetaEntry) : Bool := kind e = .cookie

def headerNameIs (e : MetaEntry) (name : List Char) : Bool := kind e = .header name

def unionHeaders : List String := ["vary"]

/-- The comma-separated tokens of some values, each once; a star absorbs everything. -/
def unionTokens (values : List (List Char)) : List Char :=
  let tokens := values.flatMap fun v ↦ ((v.splitOn ',').map trim).filter (· ≠ [])
  if ['*'] ∈ tokens then ['*']
  else join ", ".toList <| tokens.foldl
    (fun kept t ↦ if kept.any (eqIgnoreAsciiCase · t) then kept else kept ++ [t]) []

def mergedValue (name : List Char) (displaced : List (List Char)) (own : List Char) : List Char :=
  if isListed unionHeaders name then unionTokens (displaced ++ [own])
  else
    match displaced with
    | [] => own
    | v :: vs => (vs ++ [own]).foldl (fun earlier later ↦ (combine name earlier later).getD later) v

def positionalKey (n : ℕ) : String := metaRespCookiePrefix ++ toString n

/-- The first positional key that is not in use. Among one more position than there are keys, one
is free. -/
def freshKey (used : List String) : String :=
  positionalKey (((List.range (used.length + 1)).find? fun n ↦ positionalKey n ∉ used).getD 0)

def freshCookieKey (entries : List MetaEntry) : String := freshKey (keysOf entries)

/-! ## Laying one response over another -/

/-- A header or cookie that was written, with the entries it displaced. -/
structure Written where
  key : String
  displaced : List MetaEntry
deriving DecidableEq, Repr

abbrev DisplacedCookies := List (CookieId × List MetaEntry)

/-- Set the cookies of one identity aside, the first time that identity is seen. -/
def noteDisplaced (base : List MetaEntry) (ds : DisplacedCookies) (e : MetaEntry) :
    DisplacedCookies :=
  let id := cookieId e.value
  if ds.all fun d ↦ d.1 ≠ id then
    ds ++ [(id, base.filter fun b ↦ isCookie b && cookieId b.value = id)]
  else ds

/-- The cookies of `base` that the cookies of `top` replace. -/
def displacedCookies (base top : List MetaEntry) : DisplacedCookies :=
  (top.filter isCookie).foldl (noteDisplaced base) []

def withoutDisplaced (base : List MetaEntry) (ds : DisplacedCookies) : List MetaEntry :=
  base.filter fun e ↦ !isCookie e || ds.all fun d ↦ d.1 ≠ cookieId e.value

def takeDisplaced (id : CookieId) : DisplacedCookies → List MetaEntry × DisplacedCookies
  | [] => ([], [])
  | (seen, displaced) :: ds =>
    if seen = id then (displaced, (seen, []) :: ds)
    else ((takeDisplaced id ds).1, (seen, displaced) :: (takeDisplaced id ds).2)

/-- Give the first entry with the key of `e` its value, or append `e`. -/
def setByKey (e : MetaEntry) : List MetaEntry → List MetaEntry
  | [] => [e]
  | b :: base => if b.key = e.key then { b with value := e.value } :: base else b :: setByKey e base

def cookieKey (base : List MetaEntry) (e : MetaEntry) : String :=
  if base.any fun b ↦ b.key = e.key then freshCookieKey base else e.key

def putHeader (name : List Char) (e : MetaEntry) (base : List MetaEntry) : List MetaEntry :=
  let kept := base.filter fun b ↦ !headerNameIs b name
  match base.findIdx? fun b ↦ headerNameIs b name with
  | some at' => kept.insertIdx (min at' kept.length) e
  | none => kept ++ [e]

/-- Lay one entry over `base`. -/
def overlayEntry (base : List MetaEntry) (ds : DisplacedCookies) (e : MetaEntry) :
    List MetaEntry × DisplacedCookies × Option Written :=
  match kind e with
  | .cookie =>
    let (displaced, ds') := takeDisplaced (cookieId e.value) ds
    let key := cookieKey base e
    (base ++ [⟨key, e.value⟩], ds', some ⟨key, displaced⟩)
  | .header name =>
    let displaced := base.filter fun b ↦ headerNameIs b name
    let value := mergedValue name (displaced.map fun d ↦ d.value.toList) e.value.toList
    (putHeader name ⟨e.key, String.ofList value⟩ base, ds, some ⟨e.key, displaced⟩)
  | .other => (setByKey e base, ds, none)

/-- Lay the entries of a list over `base` in order, and return what was written. -/
def overlayLoop (base : List MetaEntry) (ds : DisplacedCookies) :
    List MetaEntry → List MetaEntry × List Written
  | [] => (base, [])
  | e :: top =>
    let (base', ds', written) := overlayEntry base ds e
    let (final, rest) := overlayLoop base' ds' top
    (final, written.toList ++ rest)

/-- Lay `top` over `base`. -/
def overlay (base top : List MetaEntry) : List MetaEntry × List Written :=
  let ds := displacedCookies base top
  overlayLoop (withoutDisplaced base ds) ds top

/-! ## The record of the responders -/

abbrev ResponderRecord := String → Option (List MetaEntry)

/-- The middleware entries an entry of the message stands for: itself, unless a responder wrote
it. -/
def standing (record : ResponderRecord) (e : MetaEntry) : List MetaEntry :=
  (record e.key).getD [e]

def recordWritten (record : ResponderRecord) (w : Written) : ResponderRecord :=
  Function.update record w.key (some (w.displaced.flatMap (standing record)))

def bodyHints : List String := [metaRespStream, metaRespContentLength]

structure FlowMeta where
  record : ResponderRecord
  msg : List MetaEntry

def applyResponse (s : FlowMeta) (top : List MetaEntry) : FlowMeta :=
  let (msg, written) := overlay (s.msg.filter fun e ↦ e.key ∉ bodyHints) top
  ⟨written.foldl recordWritten s.record, msg⟩

def inherited (e : MetaEntry) : Bool :=
  match kind e with
  | .cookie => true
  | .header name => !isListed bodyResponseHeaders name
  | .other => false

def carried (s : FlowMeta) : List MetaEntry :=
  (s.msg.flatMap (standing s.record)).filter inherited

def valueOf (entries : List MetaEntry) (key : String) : Option String :=
  (entries.find? fun e ↦ e.key = key).map MetaEntry.value

/-- After a middleware step, keep the record of the entries it passed through unchanged. -/
def afterContinue (record : ResponderRecord) (before next : List MetaEntry) : ResponderRecord :=
  fun key ↦
    if valueOf before key ≠ none ∧ valueOf before key = valueOf next key then record key else none

end WaferRun
