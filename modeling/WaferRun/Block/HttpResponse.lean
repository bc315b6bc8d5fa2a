import WaferRun.Block.OpenResponse
import WaferRun.Lib.Fallible

/-!
# Collected responses at the transport

A transport that has collected a stream renders its terminal as a status, header pairs and a body
(`terminalToHttpResponse`). Each kind of terminal builds its headers in its own way, and all of them
answer the same error if an entry of the metadata cannot be sent.

Nothing but the response entries of the metadata reaches the wire, and only in a form that every
transport accepts. The invariant of the header pairs is `WellFormedHeaders`, kept by each way of
adding a pair; what the answer to an unsendable response contains is stated as a lookup by name.

The rendering of the body of an error is a parameter.
-/

open List

namespace WaferRun

open Text

def defaultResponseContentType : String := "application/json"

def metaErrorCode : String := "error.code"

def errorCodeToHttpStatus : ErrorCode → ℕ
  | .ok => 200
  | .cancelled => 499
  | .invalidArgument | .outOfRange => 400
  | .deadlineExceeded => 504
  | .notFound => 404
  | .alreadyExists | .aborted => 409
  | .permissionDenied => 403
  | .resourceExhausted => 429
  | .failedPrecondition => 412
  | .unimplemented => 501
  | .unavailable => 503
  | .unauthenticated => 401
  | .unknown | .internal | .dataLoss => 500

def WaferError.detailCode (err : WaferError) : Option String := metaGet err.entries metaErrorCode

def resolveErrorStatus (err : WaferError) : ℕ :=
  resolveStatus err.entries (errorCodeToHttpStatus err.code)

structure HttpResponseParts where
  status : ℕ
  headers : List (String × String)
  body : Bytes
deriving DecidableEq, Repr

def contentTypePair : String × String := ("Content-Type", defaultResponseContentType)

def nonContentTypeHeadersFromMeta (entries : List MetaEntry) :
    Except InvalidResponseMeta (List (String × String)) :=
  (headersFromMeta entries).map fun headers ↦ headers.filter fun h ↦ h.1 ≠ "Content-Type"

section

-- the body of an error, from its class, its message and its application code
variable (errorBody : ErrorCode → String → Option String → Bytes)

def renderError (err : WaferError) (headers : List (String × String)) : HttpResponseParts :=
  ⟨resolveErrorStatus err, headers ++ [contentTypePair],
    errorBody err.code err.message err.detailCode⟩

def unsendableHeaders (entries : List MetaEntry) : List (String × String) :=
  (unsendableResponseMeta entries).foldl (fun headers e ↦
    match classifyResponseMeta e with
    | .ok (some (.header name value)) => putHeaderPair name value headers
    | _ => headers) []

/-- The answer to a response with an entry that cannot be sent: an error without metadata, with the
headers that are kept before its own. -/
def unsendableResponse (entries : List MetaEntry) : HttpResponseParts :=
  let parts := renderError errorBody (.new .internal "internal server error") []
  { parts with headers := unsendableHeaders entries ++ parts.headers }

def bufferedToHttpResponse (buf : BufferedResponse) : HttpResponseParts :=
  match headersFromMeta buf.entries with
  | .error _ => unsendableResponse errorBody buf.entries
  | .ok headers =>
    ⟨resolveStatus buf.entries 200,
      if headers.any fun h ↦ h.1 = "Content-Type" then headers else headers ++ [contentTypePair],
      buf.body⟩

def errorToHttpResponse (err : WaferError) : HttpResponseParts :=
  match nonContentTypeHeadersFromMeta err.entries with
  | .error _ => unsendableResponse errorBody err.entries
  | .ok headers => renderError errorBody err headers

def terminalToHttpResponse : Except TerminalNotResponse BufferedResponse → HttpResponseParts
  | .ok buf | .error (.halt buf) => bufferedToHttpResponse errorBody buf
  | .error (.error err) => errorToHttpResponse errorBody err
  | .error (.drop entries) =>
    match nonContentTypeHeadersFromMeta entries with
    | .ok headers => ⟨204, headers, []⟩
    | .error _ => unsendableResponse errorBody entries
  | .error (.continue msg) =>
    match nonContentTypeHeadersFromMeta msg.entries with
    | .ok headers => ⟨200, headers ++ [contentTypePair], []⟩
    | .error _ => unsendableResponse errorBody msg.entries
  | .error .malformed => ⟨500, [], "internal server error".toUTF8.toList⟩

end

/-! ## Header pairs -/

def ValidPair (h : String × String) : Prop :=
  isFieldName h.1.toList = true ∧ isListed transportOwnedResponseHeaders h.1.toList = false ∧
    isFieldValue h.2.toList = true

instance (h : String × String) : Decidable (ValidPair h) :=
  inferInstanceAs (Decidable (_ ∧ _ ∧ _))

theorem validPair_setCookie {v : String} (hv : isFieldValue v.toList = true) :
    ValidPair ("Set-Cookie", v) := by
  have hname : isFieldName "Set-Cookie".toList = true := by decide
  have hlist : isListed transportOwnedResponseHeaders "Set-Cookie".toList = false := by decide
  exact ⟨hname, hlist, hv⟩

theorem validPair_contentType {v : String} (hv : isFieldValue v.toList = true) :
    ValidPair ("Content-Type", v) := by
  have hname : isFieldName "Content-Type".toList = true := by decide
  have hlist : isListed transportOwnedResponseHeaders "Content-Type".toList = false := by decide
  exact ⟨hname, hlist, hv⟩

/-- Two pairs may stand beside each other: their names differ, or both set a cookie. -/
def MayRepeat (h h' : String × String) : Prop :=
  eqIgnoreAsciiCase h.1.toList h'.1.toList = true →
    eqIgnoreAsciiCase h.1.toList "set-cookie".toList = true

/-- Header pairs that are valid, whose names are distinct but for cookies, and in which cookies and
the content type are spelled in one way. -/
structure WellFormedHeaders (headers : List (String × String)) : Prop where
  valid : ∀ h ∈ headers, ValidPair h
  distinct : headers.Pairwise MayRepeat
  cookie : ∀ h ∈ headers, eqIgnoreAsciiCase h.1.toList "set-cookie".toList = true →
    h.1 = "Set-Cookie"
  contentType : ∀ h ∈ headers, eqIgnoreAsciiCase h.1.toList "content-type".toList = true →
    h.1 = "Content-Type"

def ValidPart : ResponseMetaPart → Prop
  | .status _ => True
  | .setCookie v | .contentType v => isFieldValue v.toList = true
  | .header name v => ValidPair (name, v) ∧
      eqIgnoreAsciiCase name.toList "content-type".toList = false ∧
      eqIgnoreAsciiCase name.toList "set-cookie".toList = false

theorem validPart_of_classify {e : MetaEntry} {part : ResponseMetaPart}
    (h : classifyResponseMeta e = .ok (some part)) : ValidPart part := by
  unfold classifyResponseMeta at h
  by_cases h1 : e.key = metaRespStatus
  · simp only [h1, if_true] at h
    split at h
    · cases h
      trivial
    · cases h
  · by_cases hv : isFieldValue e.value.toList = true
    · simp only [h1, hv, if_true, if_false] at h
      split_ifs at h with hc hh hn hl hct hsc hk
      · cases h
        exact hv
      · cases h
        exact hv
      · cases h
        exact hv
      · cases h
        simp only [Bool.not_eq_true] at hn hl hct hsc
        refine ⟨⟨?_, ?_, hv⟩, ?_, ?_⟩
        · simpa using hn
        · simpa using hl
        · simpa using hct
        · simpa using hsc
      · cases h
        exact hv
      · cases h
    · simp only [h1, hv, if_false, Bool.false_eq_true] at h
      split_ifs at h
      · cases h

theorem mem_putHeaderPair {name value : String} {headers : List (String × String)}
    {h : String × String} (hh : h ∈ putHeaderPair name value headers) :
    h = (name, value) ∨ h ∈ headers := by
  fun_induction putHeaderPair name value headers with
  | case1 => exact .inl (mem_singleton.mp hh)
  | case2 first rest heq =>
    rcases mem_cons.mp hh with rfl | hh
    · exact .inl rfl
    · exact .inr (mem_cons_of_mem first hh)
  | case3 first rest hne ih =>
    rcases mem_cons.mp hh with rfl | hh
    · exact .inr mem_cons_self
    · exact (ih hh).imp_right (mem_cons_of_mem first)

namespace WellFormedHeaders

variable {headers : List (String × String)}

theorem nil : WellFormedHeaders [] where
  valid := by simp
  distinct := List.Pairwise.nil
  cookie := by simp
  contentType := by simp

theorem sublist {kept : List (String × String)} (h : WellFormedHeaders headers)
    (hk : kept.Sublist headers) : WellFormedHeaders kept where
  valid p hp := h.valid p (hk.subset hp)
  distinct := h.distinct.sublist hk
  cookie p hp := h.cookie p (hk.subset hp)
  contentType p hp := h.contentType p (hk.subset hp)

theorem pairwise_putHeaderPair {name value : String} (h : headers.Pairwise MayRepeat) :
    (putHeaderPair name value headers).Pairwise MayRepeat := by
  fun_induction putHeaderPair name value headers with
  | case1 => exact pairwise_singleton _ _
  | case2 first rest heq =>
    obtain ⟨hfirst, hrest⟩ := pairwise_cons.mp h
    refine pairwise_cons.mpr ⟨fun p hp hname ↦ ?_, hrest⟩
    -- a pair named like the new one was named like the one it replaces
    have := hfirst p hp
    simp only [MayRepeat, eqIgnoreAsciiCase, decide_eq_true_eq] at this heq hname ⊢
    rw [← heq]
    exact this (heq.trans hname)
  | case3 first rest hne ih =>
    obtain ⟨hfirst, hrest⟩ := pairwise_cons.mp h
    refine pairwise_cons.mpr ⟨fun p hp hname ↦ ?_, ih hrest⟩
    rcases mem_putHeaderPair hp with rfl | hp
    · exact absurd hname hne
    · exact hfirst p hp hname

theorem put {name value : String} (h : WellFormedHeaders headers) (hv : ValidPair (name, value))
    (hsc : eqIgnoreAsciiCase name.toList "set-cookie".toList = false)
    (hct : eqIgnoreAsciiCase name.toList "content-type".toList = true → name = "Content-Type") :
    WellFormedHeaders (putHeaderPair name value headers) where
  valid p hp := by
    rcases mem_putHeaderPair hp with rfl | hp
    · exact hv
    · exact h.valid p hp
  distinct := pairwise_putHeaderPair h.distinct
  cookie p hp hname := by
    rcases mem_putHeaderPair hp with rfl | hp
    · exact absurd hname (by simpa using hsc)
    · exact h.cookie p hp hname
  contentType p hp hname := by
    rcases mem_putHeaderPair hp with rfl | hp
    · exact hct hname
    · exact h.contentType p hp hname

theorem append {h' : String × String} (h : WellFormedHeaders headers) (hv : ValidPair h')
    (hnew : ∀ p ∈ headers, MayRepeat p h')
    (hsc : eqIgnoreAsciiCase h'.1.toList "set-cookie".toList = true → h'.1 = "Set-Cookie")
    (hct : eqIgnoreAsciiCase h'.1.toList "content-type".toList = true → h'.1 = "Content-Type") :
    WellFormedHeaders (headers ++ [h']) where
  valid p hp := by
    rcases mem_append.mp hp with hp | hp
    · exact h.valid p hp
    · exact mem_singleton.mp hp ▸ hv
  distinct := by
    refine pairwise_append.mpr ⟨h.distinct, pairwise_singleton _ _, fun p hp q hq ↦ ?_⟩
    exact mem_singleton.mp hq ▸ hnew p hp
  cookie p hp hname := by
    rcases mem_append.mp hp with hp | hp
    · exact h.cookie p hp hname
    · rw [mem_singleton.mp hp] at hname ⊢
      exact hsc hname
  contentType p hp hname := by
    rcases mem_append.mp hp with hp | hp
    · exact h.contentType p hp hname
    · rw [mem_singleton.mp hp] at hname ⊢
      exact hct hname

theorem addCookie {v : String} (h : WellFormedHeaders headers)
    (hv : isFieldValue v.toList = true) : WellFormedHeaders (headers ++ [("Set-Cookie", v)]) := by
  have hct : eqIgnoreAsciiCase "Set-Cookie".toList "content-type".toList ≠ true := by decide
  refine h.append (validPair_setCookie hv) (fun p _ hname ↦ ?_) (fun _ ↦ rfl) fun h ↦ absurd h hct
  simp only [eqIgnoreAsciiCase, decide_eq_true_eq] at hname ⊢
  rw [hname]
  decide

theorem addPart {part : ResponseMetaPart} (h : WellFormedHeaders headers)
    (hp : ValidPart part) : WellFormedHeaders (addPart headers part) := by
  match part, hp with
  | .status _, _ => exact h
  | .setCookie v, hv => exact h.addCookie hv
  | .contentType v, hv => exact h.put (validPair_contentType hv) rfl fun _ ↦ rfl
  | .header name v, ⟨hv, hct, hsc⟩ => exact h.put hv hsc fun h ↦ absurd h (by simpa using hct)

theorem addContentType (h : WellFormedHeaders headers) (hno : ∀ p ∈ headers, p.1 ≠ "Content-Type") :
    WellFormedHeaders (headers ++ [contentTypePair]) := by
  refine h.append (by decide) (fun p hp hname ↦ ?_) (by decide) (fun _ ↦ rfl)
  simp only [eqIgnoreAsciiCase, decide_eq_true_eq] at hname
  have hct : eqIgnoreAsciiCase p.1.toList "content-type".toList = true := by
    rw [eqIgnoreAsciiCase, hname]
    decide
  exact absurd (h.contentType p hp hct) (hno p hp)

end WellFormedHeaders

/-! ## The header pairs of a terminal -/

theorem validPart_of_mem {entries : List MetaEntry} {parts : List ResponseMetaPart}
    (h : responseMetaParts entries = .ok parts) : ∀ part ∈ parts, ValidPart part := by
  induction entries generalizing parts with
  | nil =>
    cases h
    simp
  | cons e es ih =>
    rw [responseMetaParts] at h
    split at h
    · rename_i part hpart
      obtain ⟨rest, hrest, rfl⟩ := Fallible.map_eq_ok.mp h
      intro p hp
      rcases mem_append.mp hp with hp | hp
      · rw [Option.mem_toList] at hp
        exact validPart_of_classify (by rw [hpart, hp])
      · exact ih hrest p hp
    · split_ifs at h
      exact ih h

theorem wellFormed_foldl_addPart {parts : List ResponseMetaPart}
    (hp : ∀ part ∈ parts, ValidPart part) {headers : List (String × String)}
    (h : WellFormedHeaders headers) : WellFormedHeaders (parts.foldl addPart headers) := by
  induction parts generalizing headers with
  | nil => exact h
  | cons part parts ih =>
    obtain ⟨hpart, hparts⟩ := forall_mem_cons.mp hp
    exact ih hparts (h.addPart hpart)

theorem wellFormed_headersFromMeta {entries : List MetaEntry} {headers : List (String × String)}
    (h : headersFromMeta entries = .ok headers) : WellFormedHeaders headers := by
  obtain ⟨parts, hparts, rfl⟩ := Fallible.map_eq_ok.mp h
  exact wellFormed_foldl_addPart (validPart_of_mem hparts) .nil

theorem wellFormed_nonContentTypeHeaders {entries : List MetaEntry}
    {headers : List (String × String)} (h : nonContentTypeHeadersFromMeta entries = .ok headers) :
    WellFormedHeaders headers ∧ ∀ p ∈ headers, p.1 ≠ "Content-Type" := by
  obtain ⟨all, hall, rfl⟩ := Fallible.map_eq_ok.mp h
  refine ⟨(wellFormed_headersFromMeta hall).sublist filter_sublist, fun p hp ↦ ?_⟩
  simpa using (mem_filter.mp hp).2

def headerPart (e : MetaEntry) : Option (String × String) :=
  match classifyResponseMeta e with
  | .ok (some (.header name value)) => some (name, value)
  | _ => none

theorem headerPart_eq_some {e : MetaEntry} {p : String × String} :
    headerPart e = some p ↔ classifyResponseMeta e = .ok (some (.header p.1 p.2)) := by
  unfold headerPart
  split
  · rename_i name value h
    rw [h]
    simp [Prod.ext_iff]
  · rename_i hne
    simp only [reduceCtorEq, false_iff]
    exact hne p.1 p.2

def putHeaderPairs (headers pairs : List (String × String)) : List (String × String) :=
  pairs.foldl (fun headers p ↦ putHeaderPair p.1 p.2 headers) headers

theorem foldl_headerPart (entries : List MetaEntry) (headers : List (String × String)) :
    entries.foldl (fun headers e ↦
      match classifyResponseMeta e with
      | .ok (some (.header name value)) => putHeaderPair name value headers
      | _ => headers) headers = putHeaderPairs headers (entries.filterMap headerPart) := by
  induction entries generalizing headers with
  | nil => rfl
  | cons e es ih =>
    rw [foldl_cons, ih]
    cases he : headerPart e with
    | none =>
      rw [filterMap_cons_none he]
      congr 1
      split
      · rename_i name value h
        exact absurd ((headerPart_eq_some (p := (name, value))).mpr h) (by simp [he])
      · rfl
    | some p =>
      rw [filterMap_cons_some he, headerPart_eq_some.mp he]
      rfl

theorem unsendableHeaders_eq (entries : List MetaEntry) :
    unsendableHeaders entries =
      putHeaderPairs [] ((unsendableResponseMeta entries).filterMap headerPart) :=
  foldl_headerPart _ _

theorem wellFormed_putHeaderPairs {pairs headers : List (String × String)}
    (hp : ∀ p ∈ pairs, ValidPart (.header p.1 p.2))
    (h : WellFormedHeaders headers) (hno : ∀ p ∈ headers, p.1 ≠ "Content-Type") :
    WellFormedHeaders (putHeaderPairs headers pairs) ∧
      ∀ p ∈ putHeaderPairs headers pairs, p.1 ≠ "Content-Type" := by
  induction pairs generalizing headers with
  | nil => exact ⟨h, hno⟩
  | cons first pairs ih =>
    obtain ⟨hfirst, hpairs⟩ := forall_mem_cons.mp hp
    refine ih hpairs (h.addPart hfirst) fun p hp ↦ ?_
    rcases mem_putHeaderPair hp with rfl | hp
    · intro hname
      have hct := hfirst.2.1
      rw [show first.1 = "Content-Type" from hname] at hct
      revert hct
      decide
    · exact hno p hp

theorem wellFormed_unsendableHeaders (entries : List MetaEntry) :
    WellFormedHeaders (unsendableHeaders entries) ∧
      ∀ p ∈ unsendableHeaders entries, p.1 ≠ "Content-Type" := by
  rw [unsendableHeaders_eq]
  refine wellFormed_putHeaderPairs (fun p hp ↦ ?_) .nil (by simp)
  obtain ⟨e, -, he⟩ := mem_filterMap.mp hp
  exact validPart_of_classify (headerPart_eq_some.mp he)

theorem wellFormed_terminalToHttpResponse
    (errorBody : ErrorCode → String → Option String → Bytes)
    (terminal : Except TerminalNotResponse BufferedResponse) :
    WellFormedHeaders (terminalToHttpResponse errorBody terminal).headers := by
  have hunsendable (entries : List MetaEntry) :
      WellFormedHeaders (unsendableResponse errorBody entries).headers :=
    have ⟨hwf, hno⟩ := wellFormed_unsendableHeaders entries
    hwf.addContentType hno
  have hbuffered (buf : BufferedResponse) :
      WellFormedHeaders (bufferedToHttpResponse errorBody buf).headers := by
    unfold bufferedToHttpResponse
    split
    · exact hunsendable buf.entries
    · rename_i headers hh
      have hwf := wellFormed_headersFromMeta hh
      dsimp only
      split_ifs with hany
      · exact hwf
      · apply hwf.addContentType
        intro p hp hname
        exact hany (any_eq_true.mpr ⟨p, hp, by simpa using hname⟩)
  match terminal with
  | .ok buf => exact hbuffered buf
  | .error (.halt buf) => exact hbuffered buf
  | .error (.error err) =>
    change WellFormedHeaders (errorToHttpResponse errorBody err).headers
    unfold errorToHttpResponse
    split
    · exact hunsendable err.entries
    · rename_i headers hh
      obtain ⟨hwf, hno⟩ := wellFormed_nonContentTypeHeaders hh
      exact hwf.addContentType hno
  | .error (.drop entries) =>
    rw [terminalToHttpResponse]
    split
    · rename_i headers hh
      exact (wellFormed_nonContentTypeHeaders hh).1
    · exact hunsendable entries
  | .error (.continue msg) =>
    rw [terminalToHttpResponse]
    split
    · rename_i headers hh
      obtain ⟨hwf, hno⟩ := wellFormed_nonContentTypeHeaders hh
      exact hwf.addContentType hno
    · exact hunsendable msg.entries
  | .error .malformed => exact .nil

/-! ## What a response depends on -/

def isResponseEntry (e : MetaEntry) : Bool :=
  match classifyResponseMeta e with
  | .ok none => false
  | _ => true

def responseEntries (entries : List MetaEntry) : List MetaEntry := entries.filter isResponseEntry

theorem classify_of_not_isResponseEntry {e : MetaEntry} (h : ¬isResponseEntry e = true) :
    classifyResponseMeta e = .ok none := by
  unfold isResponseEntry at h
  split at h
  · assumption
  · exact absurd rfl h

theorem isResponseEntry_of_key_eq_status {e : MetaEntry} (h : e.key = metaRespStatus) :
    isResponseEntry e = true := by
  by_contra hne
  have hc := classify_of_not_isResponseEntry hne
  unfold classifyResponseMeta at hc
  simp only [h, if_true] at hc
  split at hc <;> simp at hc

theorem responseMetaParts_responseEntries (entries : List MetaEntry) :
    responseMetaParts (responseEntries entries) = responseMetaParts entries := by
  unfold responseEntries
  induction entries with
  | nil => rfl
  | cons e es ih =>
    rw [filter_cons]
    split_ifs with he
    · rw [responseMetaParts, responseMetaParts, ih]
    · rw [responseMetaParts, classify_of_not_isResponseEntry he, ih]
      cases responseMetaParts es <;> rfl

theorem resolveStatus_responseEntries (entries : List MetaEntry) (default : ℕ) :
    resolveStatus (responseEntries entries) default = resolveStatus entries default := by
  unfold resolveStatus metaGet responseEntries
  rw [List.find?_filter]
  congr 5
  funext e
  by_cases h : e.key = metaRespStatus
  · simp [h, isResponseEntry_of_key_eq_status h]
  · simp [h]

theorem unsendableResponseMeta_responseEntries (entries : List MetaEntry) :
    unsendableResponseMeta (responseEntries entries) = unsendableResponseMeta entries := by
  unfold unsendableResponseMeta responseEntries
  rw [filter_filter]
  congr 2
  funext e
  unfold isResponseEntry
  split <;> simp_all

/-- The terminals are of one kind, with one body and one error, and their metadata agrees on the
entries about the response. -/
def AgreeOnResponse :
    Except TerminalNotResponse BufferedResponse → Except TerminalNotResponse BufferedResponse → Prop
  | .ok buf, .ok buf' | .error (.halt buf), .error (.halt buf') =>
    buf.body = buf'.body ∧ responseEntries buf.entries = responseEntries buf'.entries
  | .error (.error err), .error (.error err') =>
    err.code = err'.code ∧ err.message = err'.message ∧ err.detailCode = err'.detailCode ∧
      responseEntries err.entries = responseEntries err'.entries
  | .error (.drop entries), .error (.drop entries') =>
    responseEntries entries = responseEntries entries'
  | .error (.continue msg), .error (.continue msg') =>
    responseEntries msg.entries = responseEntries msg'.entries
  | .error .malformed, .error .malformed => True
  | _, _ => False

section

variable (errorBody : ErrorCode → String → Option String → Bytes)

theorem reads_of_responseEntries_eq {entries entries' : List MetaEntry}
    (h : responseEntries entries = responseEntries entries') :
    headersFromMeta entries = headersFromMeta entries' ∧
      (∀ default, resolveStatus entries default = resolveStatus entries' default) ∧
      unsendableResponse errorBody entries = unsendableResponse errorBody entries' := by
  refine ⟨?_, fun default ↦ ?_, ?_⟩
  · rw [headersFromMeta, headersFromMeta, ← responseMetaParts_responseEntries entries, h,
      responseMetaParts_responseEntries]
  · rw [← resolveStatus_responseEntries entries, h, resolveStatus_responseEntries]
  · have hmeta : unsendableResponseMeta entries = unsendableResponseMeta entries' := by
      rw [← unsendableResponseMeta_responseEntries entries, h,
        unsendableResponseMeta_responseEntries]
    rw [unsendableResponse, unsendableResponse, unsendableHeaders, unsendableHeaders, hmeta]

theorem bufferedToHttpResponse_congr {buf buf' : BufferedResponse} (hb : buf.body = buf'.body)
    (he : responseEntries buf.entries = responseEntries buf'.entries) :
    bufferedToHttpResponse errorBody buf = bufferedToHttpResponse errorBody buf' := by
  obtain ⟨hh, hs, hu⟩ := reads_of_responseEntries_eq errorBody he
  rw [bufferedToHttpResponse, bufferedToHttpResponse, hh, hs, hu, hb]

theorem terminalToHttpResponse_congr
    {terminal terminal' : Except TerminalNotResponse BufferedResponse}
    (h : AgreeOnResponse terminal terminal') :
    terminalToHttpResponse errorBody terminal = terminalToHttpResponse errorBody terminal' := by
  match terminal, terminal', h with
  | .ok buf, .ok buf', ⟨hb, he⟩ => exact bufferedToHttpResponse_congr errorBody hb he
  | .error (.halt buf), .error (.halt buf'), ⟨hb, he⟩ =>
    exact bufferedToHttpResponse_congr errorBody hb he
  | .error (.error err), .error (.error err'), ⟨hc, hm, hd, he⟩ =>
    obtain ⟨hh, hs, hu⟩ := reads_of_responseEntries_eq errorBody he
    simp only [terminalToHttpResponse, errorToHttpResponse, renderError, resolveErrorStatus,
      nonContentTypeHeadersFromMeta, hh, hs, hu, hc, hm, hd]
  | .error (.drop entries), .error (.drop entries'), he =>
    obtain ⟨hh, -, hu⟩ := reads_of_responseEntries_eq errorBody he
    simp only [terminalToHttpResponse, nonContentTypeHeadersFromMeta, hh, hu]
  | .error (.continue msg), .error (.continue msg'), he =>
    obtain ⟨hh, -, hu⟩ := reads_of_responseEntries_eq errorBody he
    simp only [terminalToHttpResponse, nonContentTypeHeadersFromMeta, hh, hu]
  | .error .malformed, .error .malformed, _ => rfl

end

/-! ## Responses that cannot be sent -/

def terminalEntries : Except TerminalNotResponse BufferedResponse → List MetaEntry
  | .ok buf | .error (.halt buf) => buf.entries
  | .error (.error err) => err.entries
  | .error (.drop entries) => entries
  | .error (.continue msg) => msg.entries
  | .error .malformed => []

def lastSendableHeader (entries : List MetaEntry) (name : List Char) : Option (String × String) :=
  (entries.filterMap headerPart).reverse.find? fun h ↦ eqIgnoreAsciiCase h.1.toList name

def findHeader (headers : List (String × String)) (name : List Char) : Option (String × String) :=
  headers.find? fun h ↦ eqIgnoreAsciiCase h.1.toList name

theorem findHeader_cons (h : String × String) (headers : List (String × String)) (n : List Char) :
    findHeader (h :: headers) n =
      if eqIgnoreAsciiCase h.1.toList n then some h else findHeader headers n := by
  rw [findHeader, List.find?_cons]
  split <;> simp_all [findHeader]

theorem responseMetaParts_eq_error {entries : List MetaEntry} (h : ∃ e ∈ entries, ¬Sendable e) :
    ∃ invalid, responseMetaParts entries = .error invalid := by
  induction entries with
  | nil => simp at h
  | cons e es ih =>
    rw [responseMetaParts]
    by_cases he : Sendable e
    · have hes : ∃ e ∈ es, ¬Sendable e := by simpa [he] using h
      obtain ⟨invalid, hi⟩ := ih hes
      split
      · exact ⟨invalid, by rw [hi]; rfl⟩
      · rename_i refused hr
        have hkind := he refused hr
        cases hk : refused.kind with
        | transportOwned => exact ⟨invalid, hi⟩
        | unsendable => exact absurd hk hkind
    · simp only [Sendable, not_forall, not_not] at he
      obtain ⟨refused, hr, hk⟩ := he
      exact ⟨refused, by simp [hr, hk]⟩

theorem find?_putHeaderPair (name value : String) (headers : List (String × String))
    (n : List Char) :
    findHeader (putHeaderPair name value headers) n =
      if eqIgnoreAsciiCase name.toList n then some (name, value) else findHeader headers n := by
  unfold findHeader
  fun_induction putHeaderPair name value headers with
  | case1 => split_ifs <;> simp [*]
  | case2 first rest heq =>
    have hsame : eqIgnoreAsciiCase first.1.toList n = eqIgnoreAsciiCase name.toList n := by
      simp only [eqIgnoreAsciiCase, decide_eq_true_eq] at heq ⊢
      rw [heq]
    rw [List.find?_cons, List.find?_cons, hsame]
    split_ifs with hn <;> simp [hn]
  | case3 first rest hne ih =>
    rw [List.find?_cons, List.find?_cons, ih]
    by_cases hn : eqIgnoreAsciiCase name.toList n = true
    · have hfirst : eqIgnoreAsciiCase first.1.toList n = false := by
        simp only [eqIgnoreAsciiCase, decide_eq_true_eq, decide_eq_false_iff_not] at hne hn ⊢
        exact fun h ↦ hne (h.trans hn.symm)
      simp [hn, hfirst]
    · simp [hn]

theorem findHeader_putHeaderPairs (headers pairs : List (String × String)) (n : List Char) :
    findHeader (putHeaderPairs headers pairs) n =
      (findHeader pairs.reverse n).or (findHeader headers n) := by
  unfold putHeaderPairs
  induction pairs generalizing headers with
  | nil => rfl
  | cons p pairs ih =>
    rw [foldl_cons, ih, find?_putHeaderPair]
    simp only [findHeader, reverse_cons, List.find?_append, List.find?_singleton]
    split_ifs <;> simp [*]

def keepsHeader (name : List Char) : Bool :=
  !isListed bodyResponseHeaders name && !eqIgnoreAsciiCase name "cache-control".toList &&
    !eqIgnoreAsciiCase name "expires".toList

theorem keepsHeader_congr {name name' : List Char} (h : eqIgnoreAsciiCase name name' = true) :
    keepsHeader name = keepsHeader name' := by
  simp only [eqIgnoreAsciiCase, decide_eq_true_eq] at h
  simp only [keepsHeader, isListed, eqIgnoreAsciiCase, h]

theorem filterMap_unsendableResponseMeta (entries : List MetaEntry) :
    (unsendableResponseMeta entries).filterMap headerPart =
      ((entries.filterMap headerPart).filter fun h ↦ keepsHeader h.1.toList) ++
        [("Cache-Control", "no-store")] := by
  have hcc : headerPart ⟨metaRespHeaderPrefix ++ "Cache-Control", "no-store"⟩ =
      some ("Cache-Control", "no-store") := by decide
  rw [unsendableResponseMeta, filterMap_append, filterMap_cons_some hcc,
    filterMap_nil]
  congr 1
  rw [filter_filterMap, filterMap_filter]
  congr 1
  funext e
  unfold headerPart
  generalize classifyResponseMeta e = part
  match part with
  | .ok (some (.header name value)) =>
    change (if keepsHeader name.toList = true then some (name, value) else none) = _
    by_cases hk : keepsHeader name.toList = true <;> simp [hk, Option.filter]
  | .ok (some (.status _)) => rfl
  | .ok (some (.setCookie _)) => rfl
  | .ok (some (.contentType _)) => rfl
  | .ok none => rfl
  | .error _ => rfl

theorem findHeader_unsendableHeaders (entries : List MetaEntry) (n : List Char) :
    findHeader (unsendableHeaders entries) n =
      if eqIgnoreAsciiCase "Cache-Control".toList n then some ("Cache-Control", "no-store")
      else if keepsHeader n then lastSendableHeader entries n else none := by
  have hnil : findHeader [] n = none := rfl
  rw [unsendableHeaders_eq, findHeader_putHeaderPairs, filterMap_unsendableResponseMeta,
    reverse_append, reverse_singleton, singleton_append, findHeader_cons, hnil,
    Option.or_none, ← filter_reverse, findHeader, List.find?_filter, lastSendableHeader]
  split_ifs with hcc hk
  · rfl
  · congr 1
    funext h
    by_cases hn : eqIgnoreAsciiCase h.1.toList n = true
    · simp [hn, keepsHeader_congr hn, hk]
    · simp [hn]
  · refine List.find?_eq_none.mpr fun h _ hh ↦ ?_
    simp only [decide_eq_true_eq] at hh
    exact hk (keepsHeader_congr hh.2 ▸ hh.1)

theorem terminalToHttpResponse_unsendable (errorBody : ErrorCode → String → Option String → Bytes)
    {terminal : Except TerminalNotResponse BufferedResponse}
    (h : ∃ e ∈ terminalEntries terminal, ¬Sendable e) :
    terminalToHttpResponse errorBody terminal =
      unsendableResponse errorBody (terminalEntries terminal) := by
  obtain ⟨invalid, hi⟩ := responseMetaParts_eq_error h
  match terminal with
  | .ok buf | .error (.halt buf) =>
    rw [terminalEntries] at hi
    simp only [terminalToHttpResponse, bufferedToHttpResponse, headersFromMeta, hi, Except.map,
      terminalEntries]
  | .error (.error err) =>
    rw [terminalEntries] at hi
    simp only [terminalToHttpResponse, errorToHttpResponse, nonContentTypeHeadersFromMeta,
      headersFromMeta, hi, Except.map, terminalEntries]
  | .error (.drop entries) | .error (.continue msg) =>
    rw [terminalEntries] at hi
    simp only [terminalToHttpResponse, nonContentTypeHeadersFromMeta, headersFromMeta, hi,
      Except.map, terminalEntries]
  | .error .malformed => simp [terminalEntries] at h

theorem findHeader_unsendableResponse (errorBody : ErrorCode → String → Option String → Bytes)
    (entries : List MetaEntry) (n : List Char) :
    findHeader (unsendableResponse errorBody entries).headers n =
      if eqIgnoreAsciiCase "Content-Type".toList n then some contentTypePair
      else if eqIgnoreAsciiCase "Cache-Control".toList n then some ("Cache-Control", "no-store")
      else if keepsHeader n then lastSendableHeader entries n else none := by
  have happend : findHeader (unsendableResponse errorBody entries).headers n =
      (findHeader (unsendableHeaders entries) n).or (findHeader [contentTypePair] n) :=
    List.find?_append
  have hsingle : findHeader [contentTypePair] n =
      if eqIgnoreAsciiCase "Content-Type".toList n then some contentTypePair else none :=
    findHeader_cons contentTypePair [] n
  rw [happend, hsingle]
  split_ifs with hct hcc hk
  · obtain ⟨hwf, hno⟩ := wellFormed_unsendableHeaders entries
    have hnone : findHeader (unsendableHeaders entries) n = none := by
      refine List.find?_eq_none.mpr fun h hh hname ↦ hno h hh (hwf.contentType h hh ?_)
      simp only [eqIgnoreAsciiCase, decide_eq_true_eq] at hct hname ⊢
      rw [hname, ← hct]
      decide
    rw [hnone, Option.none_or]
  · rw [findHeader_unsendableHeaders, if_pos hcc, Option.or_none]
  · rw [findHeader_unsendableHeaders, if_neg hcc, if_pos hk, Option.or_none]
  · rw [findHeader_unsendableHeaders, if_neg hcc, if_neg hk, Option.or_none]

theorem lastSendableHeader_cookie {entries : List MetaEntry} {n : List Char}
    (h : eqIgnoreAsciiCase n "set-cookie".toList = true) : lastSendableHeader entries n = none := by
  refine List.find?_eq_none.mpr fun p hp hname ↦ ?_
  obtain ⟨e, -, he⟩ := mem_filterMap.mp (mem_reverse.mp hp)
  obtain ⟨-, -, hsc⟩ := validPart_of_classify (headerPart_eq_some.mp he)
  simp only [eqIgnoreAsciiCase, decide_eq_true_eq, decide_eq_false_iff_not] at h hname hsc
  exact hsc (hname.trans h)

theorem mem_unsendableResponse {errorBody : ErrorCode → String → Option String → Bytes}
    {entries : List MetaEntry} {h : String × String}
    (hh : h ∈ (unsendableResponse errorBody entries).headers) :
    eqIgnoreAsciiCase h.1.toList "set-cookie".toList = false ∧
      isListed bodyResponseHeaders h.1.toList = false := by
  have hsome : findHeader (unsendableResponse errorBody entries).headers h.1.toList ≠ none := by
    intro hnone
    exact List.find?_eq_none.mp hnone h hh (by simp [eqIgnoreAsciiCase])
  rw [findHeader_unsendableResponse] at hsome
  split_ifs at hsome with hct hcc hk
  · simp only [eqIgnoreAsciiCase, isListed, decide_eq_true_eq] at hct ⊢
    rw [← hct]
    decide
  · simp only [eqIgnoreAsciiCase, isListed, decide_eq_true_eq] at hcc ⊢
    rw [← hcc]
    decide
  · constructor
    · by_contra hsc
      exact hsome (lastSendableHeader_cookie (by simpa using hsc))
    · simp only [keepsHeader, Bool.and_eq_true, Bool.not_eq_true'] at hk
      exact hk.1.1
  · exact absurd rfl hsome

/-- **The boundary of a collected response.** Every header pair has a token for its name that the
transport does not own, and a value of visible characters, spaces and tabs; no name but that of a
cookie stands twice. The answer only depends on the body, the error and the entries about the
response. If one of those cannot be sent, the answer is one and the same for all terminals: it sets
no cookie and no header that describes a body, `Cache-Control` forbids storing it, and any other
header has the last value that can be sent. -/
theorem httpBoundary_safe (errorBody : ErrorCode → String → Option String → Bytes) :
    (∀ terminal, ∀ h ∈ (terminalToHttpResponse errorBody terminal).headers, ValidPair h) ∧
      (∀ terminal, (terminalToHttpResponse errorBody terminal).headers.Pairwise MayRepeat) ∧
      (∀ terminal terminal', AgreeOnResponse terminal terminal' →
        terminalToHttpResponse errorBody terminal = terminalToHttpResponse errorBody terminal') ∧
      ∀ terminal, (∃ e ∈ terminalEntries terminal, ¬Sendable e) →
        (∀ terminal', terminalEntries terminal' = terminalEntries terminal →
          terminalToHttpResponse errorBody terminal' = terminalToHttpResponse errorBody terminal) ∧
        (terminalToHttpResponse errorBody terminal).status = 500 ∧
        (terminalToHttpResponse errorBody terminal).body =
          errorBody .internal "internal server error" none ∧
        (∀ h ∈ (terminalToHttpResponse errorBody terminal).headers,
          eqIgnoreAsciiCase h.1.toList "set-cookie".toList = false ∧
            isListed bodyResponseHeaders h.1.toList = false) ∧
        ∀ n, findHeader (terminalToHttpResponse errorBody terminal).headers n =
          if eqIgnoreAsciiCase "Content-Type".toList n then some contentTypePair
          else if eqIgnoreAsciiCase "Cache-Control".toList n then
            some ("Cache-Control", "no-store")
          else if isListed bodyResponseHeaders n ∨ eqIgnoreAsciiCase n "expires".toList then none
          else lastSendableHeader (terminalEntries terminal) n := by
  refine ⟨fun terminal ↦ (wellFormed_terminalToHttpResponse errorBody terminal).valid,
    fun terminal ↦ (wellFormed_terminalToHttpResponse errorBody terminal).distinct,
    fun _ _ ↦ terminalToHttpResponse_congr errorBody, fun terminal hbad ↦ ?_⟩
  rw [terminalToHttpResponse_unsendable errorBody hbad]
  refine ⟨fun terminal' hentries ↦ ?_, rfl, rfl, fun h ↦ mem_unsendableResponse, fun n ↦ ?_⟩
  · rw [← hentries] at hbad ⊢
    exact terminalToHttpResponse_unsendable errorBody hbad
  · rw [findHeader_unsendableResponse]
    split_ifs with hct hcc hk hdrop hdrop
    · rfl
    · rfl
    · exact absurd hdrop (by simp_all [keepsHeader])
    · rfl
    · rfl
    · refine absurd ?_ hk
      have hcc' : ¬eqIgnoreAsciiCase n "cache-control".toList = true := by
        intro h
        apply hcc
        simp only [eqIgnoreAsciiCase, decide_eq_true_eq] at h ⊢
        rw [h]
        decide
      simp only [not_or, Bool.not_eq_true] at hdrop hcc'
      rw [keepsHeader, hdrop.1, hdrop.2, hcc']
      rfl

def badCookieDrop : Except TerminalNotResponse BufferedResponse :=
  .error (.drop [⟨"resp.header.X-Frame-Options", "DENY"⟩, ⟨"resp.header.Cache-Control", "max-age=60"⟩,
    ⟨"resp.set_cookie.sid", "sid=1\nX: y"⟩])

theorem badCookieDrop_unsendable : ∃ e ∈ terminalEntries badCookieDrop, ¬Sendable e :=
  ⟨⟨"resp.set_cookie.sid", "sid=1\nX: y"⟩, by decide, by decide⟩

theorem httpBoundary_safe_badCookie :
    findHeader (terminalToHttpResponse (fun _ _ _ ↦ []) badCookieDrop).headers
      "x-frame-options".toList = some ("X-Frame-Options", "DENY") := by
  have h := ((httpBoundary_safe fun _ _ _ ↦ []).2.2.2 badCookieDrop badCookieDrop_unsendable).2.2.2.2
    "x-frame-options".toList
  rw [h]
  decide

/-- The value that a cached response had for `Cache-Control` is not kept. -/
theorem cacheControl_replaced :
    ¬∀ (errorBody : ErrorCode → String → Option String → Bytes) (terminal : _),
      (∃ e ∈ terminalEntries terminal, ¬Sendable e) →
        ∀ h ∈ (terminalToHttpResponse errorBody terminal).headers, h ≠ contentTypePair →
          ∀ last, lastSendableHeader (terminalEntries terminal) h.1.toList = some last →
            h.2 = last.2 := by
  intro hclaim
  have h := hclaim (fun _ _ _ ↦ []) badCookieDrop badCookieDrop_unsendable
    ("Cache-Control", "no-store") (by decide) (by decide) ("Cache-Control", "max-age=60")
    (by decide)
  exact absurd h (by decide)

end WaferRun
