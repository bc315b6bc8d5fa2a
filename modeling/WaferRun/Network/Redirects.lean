import WaferRun.Block.Output
import WaferRun.Lib.Audit
import WaferRun.Wrap.UrlGrants

/-!
# Redirects of outbound requests

A block asks the network block for a URL. The services behind it never follow redirects: the
handler turns a redirect into the next request, checks its URL like the first one and asks the
service again. There are two loops, one for whole responses and one for streamed ones.

A run is a trace of what was checked, asked and answered. `Contained` says for each request of a
trace what holds of the trace before it: its URL was granted, there were at most ten requests
before it, it carries credentials only if the chain has not left the origin of the first request,
and no body after an answer that turned the chain into a bodyless one. It holds of every trace
(`redirects_contained`), whatever the service answers and whatever is granted, also if the deadline
cuts the chain. Both loops ask the same if they are answered the same.

Parsing, joining, printing and comparing URLs is a parameter; what is relied on is that a printed
URL is read back with its origin (`UrlLaws`). Services and access decisions may depend on the whole
trace.
-/

open List

namespace WaferRun

open Audit Text

def maxRedirectHops : ℕ := 10

inductive NetworkError
  | requestError (message : String)
  | other (message : String)
deriving DecidableEq

def networkErrorToWafer : NetworkError → WaferError
  | .requestError message => .new .unavailable message
  | .other message => .new .internal message

def crossOriginStrippedHeaders : List String :=
  ["authorization", "proxy-authorization", "cookie", "cookie2", "www-authenticate"]

def bodyHeaders : List String :=
  ["content-type", "content-length", "content-encoding", "transfer-encoding"]

/-- What the handler uses of URLs. An origin that is equal to no other one is `none`. -/
structure UrlCrate where
  Url : Type
  parse : String → Option Url
  join : Url → String → Option Url
  toString : Url → String
  origin : Url → Option (String × String × ℕ)

namespace UrlCrate

variable (U : UrlCrate)

def sameOrigin (u v : U.Url) : Bool := (U.origin u).isSome && U.origin u = U.origin v

def SameOrigin (s t : String) : Prop :=
  ∃ u v, U.parse s = some u ∧ U.parse t = some v ∧ U.sameOrigin u v = true

end UrlCrate

structure UrlLaws (U : UrlCrate) : Prop where
  parse_toString : ∀ u, ∃ v, U.parse (U.toString u) = some v ∧ U.origin v = U.origin u

/-! ## Requests and responses -/

structure NetworkRequest where
  method : String
  url : String
  headers : List (String × String)
  body : Option Bytes
deriving DecidableEq

structure NetworkResponse (β : Type) where
  statusCode : ℕ
  headers : List (String × List String)
  body : β

def NetworkResponse.head {β : Type} (r : NetworkResponse β) : NetworkResponse Unit :=
  ⟨r.statusCode, r.headers, ()⟩

namespace NetworkRequest

/-- The request without a body and without headers about one. -/
def rewriteToGet (r : NetworkRequest) : NetworkRequest where
  method :=
    if eqIgnoreAsciiCase r.method.toList "GET".toList ||
      eqIgnoreAsciiCase r.method.toList "HEAD".toList then r.method else "GET"
  url := r.url
  headers := r.headers.filter fun h ↦ !isListedHeader bodyHeaders h.1
  body := none

def stripCredentials (r : NetworkRequest) : NetworkRequest :=
  { r with headers := r.headers.filter fun h ↦ !isListedHeader crossOriginStrippedHeaders h.1 }

def Credentialed (r : NetworkRequest) : Prop :=
  ∃ h ∈ r.headers, isListedHeader crossOriginStrippedHeaders h.1 = true

def Bodyless (r : NetworkRequest) : Prop :=
  r.body = none ∧ ∀ h ∈ r.headers, isListedHeader bodyHeaders h.1 = false

end NetworkRequest

/-- Whether a redirect with this status drops the body; `none` if it is not followed. -/
def rewritesToGet (status : ℕ) : Option Bool :=
  if 301 ≤ status ∧ status ≤ 303 then some true
  else if status = 307 ∨ status = 308 then some false
  else none

/-- The values of the header that names the target of a redirect. -/
def locations (headers : List (String × List String)) : List String :=
  (headers.filter fun h ↦ isListedHeader ["location"] h.1).flatMap (·.2)

/-- The request that follows a redirect, or `none` if the response is final. -/
def redirectRequest (U : UrlCrate) (prev : NetworkRequest) (status : ℕ)
    (headers : List (String × List String)) : Option NetworkRequest := do
  let rewriteToGet ← rewritesToGet status
  match locations headers with
  | [location] =>
    let prevUrl ← U.parse prev.url
    let nextUrl ← U.join prevUrl location
    let next := { prev with url := U.toString nextUrl }
    let next := if rewriteToGet then next.rewriteToGet else next
    return if U.sameOrigin nextUrl prevUrl then next else next.stripCredentials
  | _ => none

/-! ## Runs -/

/-- What happens in a run. -/
inductive NetworkEvent
  | checked (url : String) (type : ResourceType) (access : ResourceAccess) (granted : Bool)
  | called (request : NetworkRequest)
  | answered (statusCode : ℕ) (headers : List (String × List String))

/-- The access decision, from all that has happened so far. -/
abbrev AccessCheck :=
  List NetworkEvent → String → ResourceType → ResourceAccess → Except WaferError Unit

/-- The answer of a service, from all that has happened so far. -/
abbrev NetworkService (β : Type) :=
  List NetworkEvent → NetworkRequest → Except NetworkError (NetworkResponse β)

def checkUrl (ctx : AccessCheck) (trace : List NetworkEvent) (url : String) :
    List NetworkEvent × Except WaferError Unit :=
  match ctx trace url .network .read with
  | .ok () => (trace ++ [.checked url .network .read true], .ok ())
  | .error e => (trace ++ [.checked url .network .read false], .error e)

def authorizeHop (ctx : AccessCheck) (trace : List NetworkEvent) (next : NetworkRequest)
    (hops : ℕ) : List NetworkEvent × Except WaferError Unit :=
  if hops ≥ maxRedirectHops then
    (trace, .error (.new .unavailable s!"too many redirects (limit {maxRedirectHops})"))
  else checkUrl ctx trace next.url

theorem lt_of_authorizeHop_eq_ok {ctx : AccessCheck} {trace trace' : List NetworkEvent}
    {next : NetworkRequest} {hops : ℕ} (h : authorizeHop ctx trace next hops = (trace', .ok ())) :
    hops < maxRedirectHops := by
  unfold authorizeHop at h
  split at h
  · cases h
  · omega

variable (U : UrlCrate)

/-- The loop for whole responses. -/
def followBuffered (service : NetworkService Bytes) (ctx : AccessCheck)
    (trace : List NetworkEvent) (request : NetworkRequest) (hops : ℕ) :
    List NetworkEvent × Except WaferError (NetworkResponse Bytes) :=
  let trace := trace ++ [.called request]
  match service trace request with
  | .error e => (trace, .error (networkErrorToWafer e))
  | .ok resp =>
    let trace := trace ++ [.answered resp.statusCode resp.headers]
    match redirectRequest U request resp.statusCode resp.headers with
    | none => (trace, .ok resp)
    | some next =>
      match h : authorizeHop ctx trace next hops with
      | (trace, .error e) => (trace, .error e)
      | (trace, .ok ()) => followBuffered service ctx trace next (hops + 1)
termination_by maxRedirectHops - hops
decreasing_by
  have := lt_of_authorizeHop_eq_ok h
  omega

/-- The loop for streamed responses. The body of a redirect is dropped. -/
def doRequestStreamingFollowing {β : Type} (service : NetworkService β) (ctx : AccessCheck)
    (trace : List NetworkEvent) (request : NetworkRequest) (hops : ℕ) :
    List NetworkEvent × Except WaferError (NetworkResponse Unit × β) :=
  let trace := trace ++ [.called request]
  match service trace request with
  | .error e => (trace, .error (networkErrorToWafer e))
  | .ok resp =>
    let head := resp.head
    let trace := trace ++ [.answered head.statusCode head.headers]
    match redirectRequest U request head.statusCode head.headers with
    | none => (trace, .ok (head, resp.body))
    | some next =>
      match h : authorizeHop ctx trace next hops with
      | (trace, .error e) => (trace, .error e)
      | (trace, .ok ()) => doRequestStreamingFollowing service ctx trace next (hops + 1)
termination_by maxRedirectHops - hops
decreasing_by
  have := lt_of_authorizeHop_eq_ok h
  omega

/-- The loop for whole responses under a deadline, which may fire after some events of the chain. -/
def doRequestFollowing (service : NetworkService Bytes) (ctx : AccessCheck)
    (trace : List NetworkEvent) (request : NetworkRequest) (deadline : Option ℕ) :
    List NetworkEvent × Except WaferError (NetworkResponse Bytes) :=
  let chain := followBuffered U service ctx trace request 0
  match deadline with
  | none => chain
  | some n => (chain.1.take (trace.length + n), .error (.new .unavailable
      "request timed out (the total covers every redirect hop)"))

def decodeAndAuthorizeUrl (decode : Bytes → Except String NetworkRequest) (ctx : AccessCheck)
    (body : Bytes) (opName : String) :
    List NetworkEvent × Except WaferError NetworkRequest :=
  match decode body with
  | .error e => ([], .error (.new .invalidArgument s!"invalid {opName} request: {e}"))
  | .ok request =>
    match checkUrl ctx [] request.url with
    | (trace, .ok ()) => (trace, .ok request)
    | (trace, .error e) => (trace, .error e)

/-- A whole or a streamed answer. -/
inductive NetworkReply (β : Type)
  | buffered (response : NetworkResponse Bytes)
  | streaming (head : NetworkResponse Unit) (body : β)

structure NetworkServices (β : Type) where
  doRequest : NetworkService Bytes
  doRequestStreaming : NetworkService β

def handleNetworkMessage {β : Type} (decode : Bytes → Except String NetworkRequest)
    (service : NetworkServices β) (ctx : AccessCheck) (deadline : Option ℕ) (kind : String)
    (body : Bytes) : List NetworkEvent × Except WaferError (NetworkReply β) :=
  if kind = "network.do" then
    match decodeAndAuthorizeUrl decode ctx body "network.do" with
    | (trace, .error e) => (trace, .error e)
    | (trace, .ok request) =>
      let (trace, reply) := doRequestFollowing U service.doRequest ctx trace request deadline
      (trace, reply.map .buffered)
  else if kind = "network.do_streaming" then
    match decodeAndAuthorizeUrl decode ctx body "network.do_streaming" with
    | (trace, .error e) => (trace, .error e)
    | (trace, .ok request) =>
      let (trace, reply) :=
        doRequestStreamingFollowing U service.doRequestStreaming ctx trace request 0
      (trace, reply.map fun reply ↦ .streaming reply.1 reply.2)
  else ([], .error (.new .unimplemented s!"unknown network operation: {kind}"))

/-! ## What holds of a request when it is issued -/

def requests (trace : List NetworkEvent) : List NetworkRequest :=
  trace.filterMap fun
    | .called r => some r
    | _ => none

theorem requests_append (a b : List NetworkEvent) :
    requests (a ++ b) = requests a ++ requests b :=
  filterMap_append

structure Issuable (before : List NetworkEvent) (r : NetworkRequest) : Prop where
  granted : .checked r.url .network .read true ∈ before
  bounded : (requests before).length ≤ maxRedirectHops
  origin : r.Credentialed → ∀ first ∈ (requests before ++ [r]).head?,
    ∀ r' ∈ requests before ++ [r], r'.url = first.url ∨ U.SameOrigin first.url r'.url
  bodyless : ∀ status headers, .answered status headers ∈ before →
    rewritesToGet status = some true → r.Bodyless

def Contained (trace : List NetworkEvent) : Prop :=
  Audit.Clean (fun before e ↦ ∀ r, e = .called r → Issuable U before r) trace

variable {U}

theorem Contained.length_le {trace : List NetworkEvent} (h : Contained U trace) :
    (requests trace).length ≤ maxRedirectHops + 1 := by
  induction trace using List.reverseRecOn with
  | nil => exact Nat.zero_le _
  | append_singleton trace e ih =>
    obtain ⟨hclean, he⟩ := clean_concat_iff.mp h
    rw [requests_append, length_append]
    rcases e with _ | r | _
    · exact ih hclean
    · exact Nat.succ_le_succ (he r rfl).bounded
    · exact ih hclean

theorem Contained.answered {trace : List NetworkEvent} (h : Contained U trace) (status : ℕ)
    (headers : List (String × List String)) : Contained U (trace ++ [.answered status headers]) :=
  clean_concat_iff.mpr ⟨h, by rintro _ ⟨⟩⟩

theorem Contained.checked {trace : List NetworkEvent} (h : Contained U trace) (url : String)
    (type : ResourceType) (access : ResourceAccess) (granted : Bool) :
    Contained U (trace ++ [.checked url type access granted]) :=
  clean_concat_iff.mpr ⟨h, by rintro _ ⟨⟩⟩

theorem Contained.called {trace : List NetworkEvent} (h : Contained U trace) {r : NetworkRequest}
    (hr : Issuable U trace r) : Contained U (trace ++ [.called r]) :=
  clean_concat_iff.mpr ⟨h, by rintro _ ⟨⟩; exact hr⟩

/-! ## One redirect -/

theorem isListedHeader_of_mem_filter {names : List String} {headers : List (String × String)}
    {h : String × String} (hmem : h ∈ headers.filter fun h ↦ !isListedHeader names h.1) :
    h ∈ headers ∧ isListedHeader names h.1 = false := by
  obtain ⟨hmem, hnot⟩ := mem_filter.mp hmem
  exact ⟨hmem, by simpa using hnot⟩

theorem NetworkRequest.bodyless_rewriteToGet (r : NetworkRequest) : r.rewriteToGet.Bodyless :=
  ⟨rfl, fun _ h ↦ (isListedHeader_of_mem_filter h).2⟩

theorem NetworkRequest.Credentialed.of_rewriteToGet {r : NetworkRequest}
    (h : r.rewriteToGet.Credentialed) : r.Credentialed := by
  obtain ⟨header, hmem, hlisted⟩ := h
  exact ⟨header, (isListedHeader_of_mem_filter hmem).1, hlisted⟩

theorem NetworkRequest.not_credentialed_stripCredentials (r : NetworkRequest) :
    ¬r.stripCredentials.Credentialed := by
  rintro ⟨header, hmem, hlisted⟩
  rw [(isListedHeader_of_mem_filter hmem).2] at hlisted
  cases hlisted

theorem NetworkRequest.Bodyless.stripCredentials {r : NetworkRequest} (h : r.Bodyless) :
    r.stripCredentials.Bodyless :=
  ⟨h.1, fun header hmem ↦ h.2 header (isListedHeader_of_mem_filter hmem).1⟩

/-- What a redirect makes of a request. It keeps no credentials when it leaves the origin, and no
body when it drops the body. -/
theorem redirectRequest_eq_some {prev next : NetworkRequest} {status : ℕ}
    {headers : List (String × List String)}
    (h : redirectRequest U prev status headers = some next) :
    ∃ prevUrl nextUrl, U.parse prev.url = some prevUrl ∧ next.url = U.toString nextUrl ∧
      (next.Credentialed → prev.Credentialed ∧ U.sameOrigin nextUrl prevUrl = true) ∧
      (prev.Bodyless → next.Bodyless) ∧ (rewritesToGet status = some true → next.Bodyless) := by
  unfold redirectRequest at h
  obtain ⟨toGet, hstatus, h⟩ := Option.bind_eq_some_iff.mp h
  split at h
  · obtain ⟨prevUrl, hprev, h⟩ := Option.bind_eq_some_iff.mp h
    obtain ⟨nextUrl, -, h⟩ := Option.bind_eq_some_iff.mp h
    -- what the status makes of the request, before the origin is looked at
    obtain ⟨middle, hmiddle, hurl, hcred, hbody, hget⟩ : ∃ middle : NetworkRequest,
        (if toGet then ({ prev with url := U.toString nextUrl } : NetworkRequest).rewriteToGet
          else { prev with url := U.toString nextUrl }) = middle ∧
        middle.url = U.toString nextUrl ∧ (middle.Credentialed → prev.Credentialed) ∧
        (prev.Bodyless → middle.Bodyless) ∧ (toGet = true → middle.Bodyless) := by
      refine ⟨_, rfl, ?_⟩
      split
      · have hbodyless := NetworkRequest.bodyless_rewriteToGet
          { prev with url := U.toString nextUrl }
        exact ⟨rfl, fun hcred ↦ hcred.of_rewriteToGet, fun _ ↦ hbodyless, fun _ ↦ hbodyless⟩
      · rename_i htoGet
        exact ⟨rfl, id, id, fun h ↦ absurd h htoGet⟩
    have hnext := Option.some.inj h
    rw [hmiddle] at hnext
    have hrewrites : rewritesToGet status = some true → toGet = true := by
      intro heq
      rw [hstatus] at heq
      exact Option.some.inj heq
    subst hnext
    refine ⟨prevUrl, nextUrl, hprev, ?_⟩
    split
    · rename_i horigin
      exact ⟨hurl, fun hc ↦ ⟨hcred hc, horigin⟩, hbody, fun heq ↦ hget (hrewrites heq)⟩
    · exact ⟨hurl, fun hc ↦ absurd hc middle.not_credentialed_stripCredentials,
        fun hb ↦ (hbody hb).stripCredentials, fun heq ↦ (hget (hrewrites heq)).stripCredentials⟩
  · cases h

theorem UrlCrate.SameOrigin.trans {s t r : String} (hst : U.SameOrigin s t)
    (htr : U.SameOrigin t r) : U.SameOrigin s r := by
  obtain ⟨u, v, hu, hv, huv⟩ := hst
  obtain ⟨v', w, hv', hw, hvw⟩ := htr
  rw [hv] at hv'
  obtain rfl := Option.some.inj hv'
  unfold sameOrigin at huv hvw
  rw [Bool.and_eq_true, decide_eq_true_iff] at huv hvw
  refine ⟨u, w, hu, hw, ?_⟩
  rw [sameOrigin, Bool.and_eq_true, decide_eq_true_iff]
  exact ⟨huv.1, huv.2.trans hvw.2⟩

theorem authorizeHop_eq_ok {ctx : AccessCheck} {trace trace' : List NetworkEvent}
    {next : NetworkRequest} {hops : ℕ} (h : authorizeHop ctx trace next hops = (trace', .ok ())) :
    hops < maxRedirectHops ∧ trace' = trace ++ [.checked next.url .network .read true] := by
  refine ⟨lt_of_authorizeHop_eq_ok h, ?_⟩
  unfold authorizeHop checkUrl at h
  split at h
  · cases h
  · split at h
    · exact (Prod.mk.inj h).1.symm
    · cases h

theorem Contained.authorizeHop {trace : List NetworkEvent} (h : Contained U trace)
    (ctx : AccessCheck) (next : NetworkRequest) (hops : ℕ) :
    Contained U (authorizeHop ctx trace next hops).1 := by
  unfold WaferRun.authorizeHop checkUrl
  split
  · exact h
  · split
    · exact h.checked _ _ _ _
    · exact h.checked _ _ _ _

/-- **One hop.** A redirect of an issuable request that is authorized is issuable again. -/
theorem Issuable.redirect (hU : UrlLaws U) {ctx : AccessCheck} {trace trace' : List NetworkEvent}
    {request next : NetworkRequest} {status hops : ℕ} {headers : List (String × List String)}
    (h : Issuable U trace request) (hhops : (requests trace).length = hops)
    (hredirect : redirectRequest U request status headers = some next)
    (hok : WaferRun.authorizeHop ctx (trace ++ [.called request] ++ [.answered status headers]) next
      hops = (trace', .ok ())) :
    Issuable U trace' next ∧ (requests trace').length = hops + 1 := by
  obtain ⟨hlt, htrace⟩ := authorizeHop_eq_ok hok
  obtain ⟨prevUrl, nextUrl, hprev, hurl, hcred, hbody, hget⟩ := redirectRequest_eq_some hredirect
  have hrequests : requests trace' = requests trace ++ [request] := by
    rw [htrace, requests_append, requests_append, requests_append]
    change requests trace ++ [request] ++ [] ++ [] = _
    rw [append_nil, append_nil]
  have hlength : (requests trace').length = hops + 1 := by
    rw [hrequests, length_append, hhops]
    rfl
  refine ⟨⟨?_, hlength ▸ hlt, ?_, ?_⟩, hlength⟩
  · rw [htrace]
    exact mem_append_right _ mem_cons_self
  · intro hc first hfirst r' hr'
    obtain ⟨hcprev, horigin⟩ := hcred hc
    have hhead : first ∈ (requests trace ++ [request]).head? := by
      rw [hrequests, append_assoc] at hfirst
      rcases hreq : requests trace with _ | ⟨r, rs⟩
      · rw [hreq] at hfirst
        exact hfirst
      · rw [hreq] at hfirst
        exact hfirst
    have hbefore := h.origin hcprev first hhead
    rcases mem_append.mp hr' with hr' | hr'
    · exact hbefore r' (hrequests ▸ hr')
    · obtain rfl := mem_singleton.mp hr'
      -- the next URL has the origin of the request it answers
      have hstep : U.SameOrigin request.url r'.url := by
        obtain ⟨v, hv, hvorigin⟩ := hU.parse_toString nextUrl
        refine ⟨prevUrl, v, hprev, hurl ▸ hv, ?_⟩
        unfold UrlCrate.sameOrigin at horigin ⊢
        rw [Bool.and_eq_true, decide_eq_true_iff] at horigin ⊢
        rw [hvorigin, ← horigin.2]
        exact ⟨horigin.1, rfl⟩
      rcases hbefore request (mem_append_right _ mem_cons_self) with heq | hsame
      · exact .inr (heq ▸ hstep)
      · exact .inr (hsame.trans hstep)
  · intro status' headers' hmem hstatus'
    rw [htrace] at hmem
    rcases mem_append.mp hmem with hmem | hmem
    · rcases mem_append.mp hmem with hmem | hmem
      · rcases mem_append.mp hmem with hmem | hmem
        · exact hbody (h.bodyless status' headers' hmem hstatus')
        · cases mem_singleton.mp hmem
      · cases mem_singleton.mp hmem
        exact hget hstatus'
    · cases mem_singleton.mp hmem

/-! ## The loops -/

theorem followBuffered_contained (hU : UrlLaws U) (service : NetworkService Bytes)
    (ctx : AccessCheck) {trace : List NetworkEvent} {request : NetworkRequest} {hops : ℕ}
    (htrace : Contained U trace) (h : Issuable U trace request)
    (hhops : (requests trace).length = hops) :
    Contained U (followBuffered U service ctx trace request hops).1 := by
  fun_induction followBuffered U service ctx trace request hops with
  | case1 trace request hops trace' e herror => exact htrace.called h
  | case2 trace request hops trace' resp hresp trace'' hnone =>
    exact (htrace.called h).answered _ _
  | case3 trace request hops trace' resp hresp trace'' next hnext trace''' e hrefused =>
    have hcontained := ((htrace.called h).answered resp.statusCode resp.headers).authorizeHop ctx
      next hops
    have hfinal : (authorizeHop ctx trace'' next hops).1 = trace''' := by rw [hrefused]
    exact hfinal ▸ hcontained
  | case4 trace request hops trace' resp hresp trace'' next hnext trace''' hok ih =>
    have hcontained := ((htrace.called h).answered resp.statusCode resp.headers).authorizeHop ctx
      next hops
    have hfinal : (authorizeHop ctx trace'' next hops).1 = trace''' := by rw [hok]
    obtain ⟨hnext, hlength⟩ := h.redirect hU hhops hnext hok
    exact ih (hfinal ▸ hcontained) hnext hlength

/-- **The two loops.** They do the same if they are answered the same. -/
theorem followBuffered_fst_eq {β : Type} {service : NetworkService Bytes}
    {streaming : NetworkService β}
    (hsame : ∀ trace r, (service trace r).map NetworkResponse.head =
      (streaming trace r).map NetworkResponse.head)
    (ctx : AccessCheck) (trace : List NetworkEvent) (request : NetworkRequest) (hops : ℕ) :
    (followBuffered U service ctx trace request hops).1 =
      (doRequestStreamingFollowing U streaming ctx trace request hops).1 := by
  -- what the other service answers where one is answered
  have hanswer : ∀ trace r resp, service trace r = .ok resp →
      ∃ resp', streaming trace r = .ok resp' ∧ resp'.statusCode = resp.statusCode ∧
        resp'.headers = resp.headers := by
    intro trace r resp hresp
    have h := hsame trace r
    rw [hresp] at h
    rcases hs : streaming trace r with e | resp'
    · rw [hs] at h
      cases h
    · rw [hs] at h
      have hhead := Except.ok.inj h
      exact ⟨resp', rfl, congrArg NetworkResponse.statusCode hhead.symm,
        congrArg NetworkResponse.headers hhead.symm⟩
  fun_induction followBuffered U service ctx trace request hops with
  | case1 trace request hops trace' e herror =>
    have h := hsame trace' request
    rw [herror] at h
    rcases hs : streaming trace' request with e' | resp'
    · rw [doRequestStreamingFollowing]
      dsimp only
      rw [hs]
    · rw [hs] at h
      cases h
  | case2 trace request hops trace' resp hresp trace'' hnone =>
    obtain ⟨resp', hs, hstatus, hheaders⟩ := hanswer _ _ _ hresp
    rw [doRequestStreamingFollowing]
    dsimp only [NetworkResponse.head]
    rw [hs]
    dsimp only
    rw [hstatus, hheaders, hnone]
  | case3 trace request hops trace' resp hresp trace'' next hnext trace''' e hrefused =>
    obtain ⟨resp', hs, hstatus, hheaders⟩ := hanswer _ _ _ hresp
    rw [doRequestStreamingFollowing]
    dsimp only [NetworkResponse.head]
    rw [hs]
    dsimp only
    rw [hstatus, hheaders, hnext]
    dsimp only
    split
    · rename_i heq
      exact (Prod.mk.inj (hrefused.symm.trans heq)).1
    · rename_i heq
      cases (Prod.mk.inj (hrefused.symm.trans heq)).2
  | case4 trace request hops trace' resp hresp trace'' next hnext trace''' hok ih =>
    obtain ⟨resp', hs, hstatus, hheaders⟩ := hanswer _ _ _ hresp
    rw [doRequestStreamingFollowing]
    dsimp only [NetworkResponse.head]
    rw [hs]
    dsimp only
    rw [hstatus, hheaders, hnext]
    dsimp only
    split
    · rename_i heq
      cases (Prod.mk.inj (hok.symm.trans heq)).2
    · rename_i heq
      rw [ih, (Prod.mk.inj (hok.symm.trans heq)).1]

theorem doRequestStreamingFollowing_contained (hU : UrlLaws U) {β : Type}
    (service : NetworkService β) (ctx : AccessCheck) {trace : List NetworkEvent}
    {request : NetworkRequest} {hops : ℕ} (htrace : Contained U trace)
    (h : Issuable U trace request) (hhops : (requests trace).length = hops) :
    Contained U (doRequestStreamingFollowing U service ctx trace request hops).1 := by
  -- a service for whole responses with the same answers but empty bodies
  let buffered : NetworkService Bytes := fun trace r ↦
    (service trace r).map fun resp ↦ ⟨resp.statusCode, resp.headers, []⟩
  have hsame : ∀ trace r, (buffered trace r).map NetworkResponse.head =
      (service trace r).map NetworkResponse.head := by
    intro trace r
    change ((service trace r).map _).map _ = _
    rcases service trace r with e | resp <;> rfl
  rw [← followBuffered_fst_eq hsame]
  exact followBuffered_contained hU buffered ctx htrace h hhops

/-! ## The handler -/

/-- What is known once the first URL was looked at: nothing was asked, and if the request goes on,
it is issuable. -/
theorem decodeAndAuthorizeUrl_contained (decode : Bytes → Except String NetworkRequest)
    (ctx : AccessCheck) (body : Bytes) (opName : String) :
    Contained U (decodeAndAuthorizeUrl decode ctx body opName).1 ∧
      ∀ trace request, decodeAndAuthorizeUrl decode ctx body opName = (trace, .ok request) →
        Issuable U trace request ∧ requests trace = [] := by
  have hnil : Contained U [] := clean_nil
  unfold decodeAndAuthorizeUrl checkUrl
  rcases decode body with e | request
  · exact ⟨hnil, by rintro _ _ ⟨⟩⟩
  · dsimp only
    rcases ctx [] request.url .network .read with e | _
    · exact ⟨hnil.checked _ _ _ _, by rintro _ _ ⟨⟩⟩
    · refine ⟨hnil.checked _ _ _ _, ?_⟩
      rintro _ _ ⟨⟩
      refine ⟨⟨mem_cons_self, Nat.zero_le _, fun _ first hfirst r' hr' ↦ ?_, ?_⟩, rfl⟩
      · obtain rfl := Option.some.inj hfirst
        obtain rfl := mem_singleton.mp hr'
        exact .inl rfl
      · intro status headers hmem
        cases mem_singleton.mp hmem

theorem doRequestFollowing_contained (hU : UrlLaws U) (service : NetworkService Bytes)
    (ctx : AccessCheck) {trace : List NetworkEvent} {request : NetworkRequest}
    (deadline : Option ℕ) (htrace : Contained U trace) (h : Issuable U trace request)
    (hnone : requests trace = []) :
    Contained U (doRequestFollowing U service ctx trace request deadline).1 := by
  have hlength : (requests trace).length = 0 := by rw [hnone]; rfl
  have hchain := followBuffered_contained hU service ctx htrace h hlength
  rcases deadline with _ | n
  · exact hchain
  · exact hchain.of_prefix (List.take_prefix _ _)

theorem handleNetworkMessage_contained (hU : UrlLaws U) {β : Type}
    (decode : Bytes → Except String NetworkRequest) (service : NetworkServices β)
    (ctx : AccessCheck) (deadline : Option ℕ) (kind : String) (body : Bytes) :
    Contained U (handleNetworkMessage U decode service ctx deadline kind body).1 := by
  unfold handleNetworkMessage
  split
  · obtain ⟨hcontained, hok⟩ :=
      decodeAndAuthorizeUrl_contained (U := U) decode ctx body "network.do"
    split
    · rename_i heq
      rwa [heq] at hcontained
    · rename_i trace request heq
      obtain ⟨hissuable, hnone⟩ := hok trace request heq
      rw [heq] at hcontained
      exact doRequestFollowing_contained hU _ ctx deadline hcontained hissuable hnone
  · split
    · obtain ⟨hcontained, hok⟩ :=
        decodeAndAuthorizeUrl_contained (U := U) decode ctx body "network.do_streaming"
      split
      · rename_i heq
        rwa [heq] at hcontained
      · rename_i trace request heq
        obtain ⟨hissuable, hnone⟩ := hok trace request heq
        rw [heq] at hcontained
        exact doRequestStreamingFollowing_contained hU _ ctx hcontained hissuable
          (by rw [hnone]; rfl)
    · exact clean_nil

theorem decodeAndAuthorizeUrl_opName (decode : Bytes → Except String NetworkRequest)
    (ctx : AccessCheck) (body : Bytes) (op op' : String) :
    (decodeAndAuthorizeUrl decode ctx body op).1 = (decodeAndAuthorizeUrl decode ctx body op').1 ∧
      ∀ trace request, decodeAndAuthorizeUrl decode ctx body op = (trace, .ok request) →
        decodeAndAuthorizeUrl decode ctx body op' = (trace, .ok request) := by
  unfold decodeAndAuthorizeUrl
  rcases decode body with e | request
  · exact ⟨rfl, by rintro _ _ ⟨⟩⟩
  · exact ⟨rfl, fun _ _ ↦ id⟩

/-- **Redirects are contained.** Whatever a service answers and whatever is granted, every request
of a run is issuable after what happened before it: its URL was granted, it carries credentials
only while the chain stays at the origin of the first request, and no body once the chain dropped
it. At most eleven requests are made. Without a deadline that fires, both operations ask the same
if they are answered the same. -/
theorem redirects_contained (hU : UrlLaws U) {β : Type}
    (decode : Bytes → Except String NetworkRequest) (service : NetworkServices β)
    (ctx : AccessCheck) (deadline : Option ℕ) (kind : String) (body : Bytes) :
    (∀ before r, before ++ [.called r] <+:
        (handleNetworkMessage U decode service ctx deadline kind body).1 → Issuable U before r) ∧
    (requests (handleNetworkMessage U decode service ctx deadline kind body).1).length ≤
      maxRedirectHops + 1 ∧
    ((∀ trace r, (service.doRequest trace r).map NetworkResponse.head =
        (service.doRequestStreaming trace r).map NetworkResponse.head) →
      (handleNetworkMessage U decode service ctx none "network.do" body).1 =
        (handleNetworkMessage U decode service ctx deadline "network.do_streaming" body).1) := by
  have hcontained := handleNetworkMessage_contained hU decode service ctx deadline kind body
  refine ⟨fun before r h ↦ hcontained before _ h r rfl, hcontained.length_le, fun hsame ↦ ?_⟩
  obtain ⟨hfst, hok⟩ :=
    decodeAndAuthorizeUrl_opName decode ctx body "network.do_streaming" "network.do"
  unfold handleNetworkMessage
  rw [if_pos rfl, if_neg (by decide), if_pos rfl]
  rcases hs : decodeAndAuthorizeUrl decode ctx body "network.do_streaming" with ⟨trace, e | request⟩
  · rcases hb : decodeAndAuthorizeUrl decode ctx body "network.do" with ⟨trace', e' | request⟩
    · rw [hs, hb] at hfst
      exact hfst.symm
    · have := (decodeAndAuthorizeUrl_opName decode ctx body "network.do"
        "network.do_streaming").2 trace' request hb
      rw [hs] at this
      cases this
  · rw [hok trace request hs]
    exact followBuffered_fst_eq hsame ctx trace request 0

def plainUrls : UrlCrate where
  Url := { s : String // (plainParse s).isSome }
  parse s := if h : (plainParse s).isSome then some ⟨s, h⟩ else none
  join _ s := if h : (plainParse s).isSome then some ⟨s, h⟩ else none
  toString u := u.1
  origin u := (plainParse u.1).map fun u ↦ (u.scheme, u.host.getD "", u.portOrKnownDefault.getD 0)

theorem plainUrls_laws : UrlLaws plainUrls where
  parse_toString u := ⟨u, dif_pos u.2, rfl⟩

def elsewhere : NetworkServices Unit where
  doRequest _ _ := .ok ⟨302, [("Location", ["https://b.com/"])], []⟩
  doRequestStreaming _ _ := .ok ⟨302, [("Location", ["https://b.com/"])], ()⟩

theorem redirects_contained_elsewhere :
    let run := handleNetworkMessage plainUrls
      (fun _ ↦ .ok ⟨"GET", "https://a.com/", [("Authorization", "secret")], none⟩) elsewhere
      (fun _ _ _ _ ↦ .ok ())
    (∀ before r, before ++ [.called r] <+: (run none "network.do" []).1 →
      Issuable plainUrls before r) ∧
    (requests (run none "network.do" []).1).length ≤ maxRedirectHops + 1 ∧
    ((∀ trace r, (elsewhere.doRequest trace r).map NetworkResponse.head =
        (elsewhere.doRequestStreaming trace r).map NetworkResponse.head) →
      (run none "network.do" []).1 = (run none "network.do_streaming" []).1) :=
  redirects_contained plainUrls_laws _ elsewhere _ none "network.do" []

end WaferRun
