import WaferRun.Flow.Overlay
import WaferRun.Block.RateLimit

/-!
# The message of an HTTP request

The head of an HTTP request becomes a message (`buildHttpMessage`). Every header becomes one entry,
its field lines joined under the lower-cased name, and every parameter of the query becomes two.
Two headers are mirrored under further keys, with the same joined value: the content type and the
host.

Each header is built from its own field lines only (`filter_joinHeaders`), and likewise each entry
of the message from what was set under its key. So a header can be followed from the wire to the
message without regard to the others.

The decoder of query strings and the tables of lower-casing are parameters.
-/

namespace WaferRun

open Text

def metaHttpMethod : String := "http.method"
def metaHttpPath : String := "http.path"
def metaHttpRawQuery : String := "http.raw_query"
def metaHttpRemoteAddr : String := "http.remote_addr"
def metaHttpContentType : String := "http.content_type"
def metaHttpHost : String := "http.host"
def metaHttpHeaderPrefix : String := "http.header."
def metaHttpQueryPrefix : String := "http.query."
def metaReqAction : String := "req.action"
def metaReqResource : String := "req.resource"
def metaReqContentType : String := "req.content_type"
def metaReqQueryPrefix : String := "req.query."

def toAsciiUppercase (s : String) : String := String.ofList (s.toList.map Char.toUpper)

/-- The action of a method; an unknown one is an `execute`. -/
def actionForHttpMethod (method : String) : String :=
  match toAsciiUppercase method with
  | "GET" | "HEAD" => "retrieve"
  | "POST" => "create"
  | "PUT" | "PATCH" => "update"
  | "DELETE" => "delete"
  | _ => "execute"

/-- What the listener has read of a request, without its body. -/
structure RequestHead where
  method : String
  path : String
  rawQuery : String
  remoteAddr : String
  headers : List (String × String)
deriving DecidableEq, Repr

/-! ## Field lines -/

def toLowercase (U : CaseTables) (s : String) : String := String.ofList (U.lower s.toList)

/-- Lines of one name are joined by commas, and those of `cookie` by semicolons. -/
def addFieldLine (name value : String) : List (String × String) → List (String × String)
  | [] => [(name, value)]
  | (seen, joined) :: rest =>
    if seen = name then
      (seen, joined ++ (if name = "cookie" then "; " else ", ") ++ value) :: rest
    else (seen, joined) :: addFieldLine name value rest

def joinHeaders (U : CaseTables) (lines : List (String × String)) : List (String × String) :=
  lines.foldl (fun joined line ↦ addFieldLine (toLowercase U line.1) line.2 joined) []

/-- Empty if there is no such header. -/
def joinedValue (headers : List (String × String)) (wanted : String) : String :=
  (headers.find? fun header ↦ header.1 = wanted).elim "" Prod.snd

theorem filter_addFieldLine (q : String → Bool) (name value : String)
    (joined : List (String × String)) :
    (addFieldLine name value joined).filter (fun header ↦ q header.1) =
      if q name then addFieldLine name value (joined.filter fun header ↦ q header.1)
      else joined.filter fun header ↦ q header.1 := by
  induction joined with
  | nil => cases hq : q name <;> simp [addFieldLine, hq]
  | cons header joined ih =>
    obtain ⟨seen, value'⟩ := header
    rw [addFieldLine]
    by_cases hs : seen = name
    · cases hq : q name <;> simp [hs, hq, addFieldLine]
    · rw [if_neg hs, List.filter_cons, ih]
      cases hqs : q seen <;> cases hq : q name <;> simp [hqs, addFieldLine, hs]

/-- **A header is joined from its own field lines.** -/
theorem filter_joinHeaders (U : CaseTables) (q : String → Bool) (lines : List (String × String)) :
    (joinHeaders U lines).filter (fun header ↦ q header.1) =
      joinHeaders U (lines.filter fun line ↦ q (toLowercase U line.1)) := by
  suffices ∀ joined : List (String × String),
      (lines.foldl (fun joined line ↦ addFieldLine (toLowercase U line.1) line.2 joined)
        joined).filter (fun header ↦ q header.1) =
      (lines.filter fun line ↦ q (toLowercase U line.1)).foldl
        (fun joined line ↦ addFieldLine (toLowercase U line.1) line.2 joined)
        (joined.filter fun header ↦ q header.1) from this []
  induction lines with
  | nil => exact fun _ ↦ rfl
  | cons line lines ih =>
    intro joined
    rw [List.foldl_cons, ih, filter_addFieldLine]
    cases hq : q (toLowercase U line.1) <;> simp [hq]

theorem joinedValue_filter (q : String → Bool) {wanted : String} (hq : q wanted = true)
    (headers : List (String × String)) :
    joinedValue (headers.filter fun header ↦ q header.1) wanted = joinedValue headers wanted := by
  rw [joinedValue, joinedValue, List.find?_filter]
  congr 2
  funext header
  by_cases h : header.1 = wanted
  · simp [h, hq]
  · simp [h]

/-- The entries in the order in which they are set. -/
def requestEntries (U : CaseTables) (parseQuery : String → List (String × String))
    (r : RequestHead) : List MetaEntry :=
  let method := toAsciiUppercase r.method
  let headers := joinHeaders U r.headers
  let contentType := joinedValue headers "content-type"
  let host := joinedValue headers "host"
  [⟨metaHttpMethod, method⟩, ⟨metaHttpPath, r.path⟩, ⟨metaHttpRawQuery, r.rawQuery⟩,
    ⟨metaHttpRemoteAddr, r.remoteAddr⟩, ⟨metaHttpContentType, contentType⟩, ⟨metaHttpHost, host⟩,
    ⟨metaReqAction, actionForHttpMethod method⟩, ⟨metaReqResource, r.path⟩,
    ⟨metaReqClientIp, r.remoteAddr⟩, ⟨metaReqContentType, contentType⟩] ++
  headers.map (fun header ↦ ⟨metaHttpHeaderPrefix ++ header.1, header.2⟩) ++
  if r.rawQuery = "" then []
  else (parseQuery r.rawQuery).flatMap fun param ↦
    [⟨metaHttpQueryPrefix ++ param.1, param.2⟩, ⟨metaReqQueryPrefix ++ param.1, param.2⟩]

def buildHttpMessage (U : CaseTables) (parseQuery : String → List (String × String))
    (r : RequestHead) : Message where
  kind := toAsciiUppercase r.method ++ ":" ++ r.path
  entries := setByKeys [] (requestEntries U parseQuery r)

end WaferRun
