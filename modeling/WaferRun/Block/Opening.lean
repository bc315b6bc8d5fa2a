import WaferRun.Block.HttpResponse
import WaferRun.Block.StreamedBody

/-!
# Opening a response loses nothing

A response that is not streamed is collected. Opening it has read ahead, and what is put back
collects to what the stream would have collected to: the empty chunks that the check of a declared
length of zero drops say nothing, and the metadata that declared the length counts as a part of the
response all the same (`collectFrom_checkEmptyBody`).

Instead, opening may refuse the metadata of a response that is about to be streamed (`Refuses`).
Then the producer's stream is replaced by one that is rendered as the answer to an unsendable
response.
-/

open List

namespace WaferRun

open Text OutputStream

/-! ## What is refused -/

/-- The body is known to be longer than declared before its head is sent: its first chunk is, or
there is one where none was declared. -/
def Exceeds (declared : ℕ) (events : List StreamEvent) : Prop :=
  if 0 < declared then ∃ first rest, events = .chunk first :: rest ∧ declared < first.length
  else producedBody events ≠ []

/-- The response is to be streamed, but an entry of its leading metadata cannot be sent, or its
declared length is no number, or is exceeded. -/
structure Refuses (o : OutputStream) : Prop where
  declares : declaresStreaming o.takeLeadingMeta.1 = true
  body : o.takeLeadingMeta.2.events.head?.any StreamEvent.isChunk = true
  reason : (∃ e ∈ o.takeLeadingMeta.1, ¬Sendable e) ∨
    (∃ invalid, contentLength o.takeLeadingMeta.1 = .error invalid) ∨
      ∃ declared, contentLength o.takeLeadingMeta.1 = .ok (some declared) ∧
        Exceeds declared o.takeLeadingMeta.2.events

theorem exists_responseMetaParts {entries : List MetaEntry} (h : ∀ e ∈ entries, Sendable e) :
    ∃ parts, responseMetaParts entries = .ok parts := by
  induction entries with
  | nil => exact ⟨[], rfl⟩
  | cons e es ih =>
    obtain ⟨he, hes⟩ := forall_mem_cons.mp h
    obtain ⟨parts, hparts⟩ := ih hes
    rw [responseMetaParts]
    split
    next part _ => exact ⟨part.toList ++ parts, by rw [hparts]; rfl⟩
    next invalid hinvalid =>
      have howned : invalid.kind = .transportOwned := by
        cases hk : invalid.kind with
        | transportOwned => rfl
        | unsendable => exact absurd hk (he invalid hinvalid)
      exact ⟨parts, by rw [if_pos howned, hparts]⟩

theorem headersFromMeta_eq_error_iff {entries : List MetaEntry} :
    (∃ invalid, headersFromMeta entries = .error invalid) ↔ ∃ e ∈ entries, ¬Sendable e := by
  constructor
  · rintro ⟨invalid, h⟩
    by_contra hall
    push Not at hall
    obtain ⟨parts, hparts⟩ := exists_responseMetaParts hall
    rw [headersFromMeta, hparts] at h
    cases h
  · intro h
    obtain ⟨invalid, hinvalid⟩ := responseMetaParts_eq_error h
    exact ⟨invalid, by rw [headersFromMeta, hinvalid]; rfl⟩

/-! ## The check of a declared length -/

theorem checkEmptyBody_skipped (skipped es : List StreamEvent) :
    checkEmptyBody skipped es =
      ((checkEmptyBody [] es).1, skipped ++ (checkEmptyBody [] es).2) := by
  induction es generalizing skipped with
  | nil => rfl
  | cons e es ih =>
    cases e with
    | chunk bytes =>
      cases bytes with
      | nil => exact ih skipped
      | cons b bs => rfl
    | metadata entry =>
      rw [checkEmptyBody, ih, checkEmptyBody, ih ([] ++ _), append_assoc]
      rfl
    | complete _ | error _ | drop _ | halt _ _ | «continue» _ => rfl

/-- Once a part of the response has been read, empty chunks say nothing. -/
theorem collectFrom_checkEmptyBody (body : Bytes) (entries : List MetaEntry)
    (es : List StreamEvent) :
    collectFrom body entries true (checkEmptyBody [] es).2 = collectFrom body entries true es := by
  induction es generalizing body entries with
  | nil => rfl
  | cons e es ih =>
    cases e with
    | chunk bytes =>
      cases bytes with
      | nil =>
        rw [checkEmptyBody, ih, collectFrom, append_nil]
      | cons b bs => rfl
    | metadata entry =>
      rw [checkEmptyBody, checkEmptyBody_skipped, collectFrom]
      exact ih body (entries ++ [entry])
    | complete _ | error _ | drop _ | halt _ _ | «continue» _ => rfl

theorem checkEmptyBody_exceeded_iff {es : List StreamEvent} :
    (∃ invalid, (checkEmptyBody [] es).1 = .exceeded invalid) ↔ producedBody es ≠ [] := by
  induction es with
  | nil =>
    refine iff_of_false ?_ (not_not.mpr rfl)
    rintro ⟨_, h⟩
    cases h
  | cons e es ih =>
    cases e with
    | chunk bytes =>
      cases bytes with
      | nil => exact ih
      | cons b bs => exact iff_of_true ⟨_, rfl⟩ (cons_ne_nil _ _)
    | metadata entry =>
      rw [checkEmptyBody, checkEmptyBody_skipped]
      exact ih
    | complete _ | error _ | drop _ | halt _ _ | «continue» _ =>
      refine iff_of_false ?_ (not_not.mpr rfl)
      rintro ⟨_, h⟩
      cases h

theorem checkDeclaredLength_exceeded_iff {declared : ℕ} {es : List StreamEvent} :
    (∃ invalid, (checkDeclaredLength declared es).1 = .exceeded invalid) ↔ Exceeds declared es := by
  unfold checkDeclaredLength Exceeds
  split
  · split
    next first rest =>
      split
      next hlong => exact ⟨fun _ ↦ ⟨first, rest, rfl, hlong⟩, fun _ ↦ ⟨_, rfl⟩⟩
      next hshort =>
        refine ⟨nofun, fun ⟨first', rest', heq, hlong⟩ ↦ ?_⟩
        cases heq
        exact absurd hlong hshort
    next hne => exact ⟨nofun, fun ⟨first, rest, heq, _⟩ ↦ absurd heq (hne first rest)⟩
  · exact checkEmptyBody_exceeded_iff

theorem checkDeclaredLength_eq_noBody {declared : ℕ} {es rest : List StreamEvent}
    (h : checkDeclaredLength declared es = (.noBody, rest)) :
    declared = 0 ∧ rest = (checkEmptyBody [] es).2 := by
  unfold checkDeclaredLength at h
  split at h
  · split at h
    · split at h
      · cases h
      · cases h
    · cases h
  next hpos => exact ⟨Nat.eq_zero_of_not_pos hpos, by rw [h]⟩

theorem collectFrom_metadata (body : Bytes) (entries : List MetaEntry) (any : Bool)
    (leading : List MetaEntry) (es : List StreamEvent) :
    collectFrom body entries any (leading.map .metadata ++ es) =
      collectFrom body (entries ++ leading) (any || !leading.isEmpty) es := by
  induction leading generalizing entries any with
  | nil =>
    rw [append_nil, isEmpty_nil, Bool.not_true, Bool.or_false]
    rfl
  | cons entry leading ih =>
    rw [map_cons, cons_append, collectFrom, ih, append_assoc]
    cases any <;> rfl

theorem contentLength_nil : contentLength [] = .ok none := rfl

/-! ## The answer to what is refused -/

theorem unsendableResponseMeta_header {entries : List MetaEntry} {e : MetaEntry}
    (he : e ∈ unsendableResponseMeta entries) : ∃ p, headerPart e = some p := by
  rcases mem_append.mp he with he | he
  · have hkept := (mem_filter.mp he).2
    split at hkept
    next name value hc => exact ⟨(name, value), headerPart_eq_some.mpr hc⟩
    · cases hkept
  · rw [mem_singleton.mp he]
    exact ⟨("Cache-Control", "no-store"), by decide⟩

theorem metaGet_eq_none_of_headers {entries : List MetaEntry} {key : String}
    (hkey : ∀ value, headerPart ⟨key, value⟩ = none)
    (h : ∀ e ∈ entries, ∃ p, headerPart e = some p) : metaGet entries key = none := by
  rw [metaGet, Option.map_eq_none_iff, List.find?_eq_none]
  intro e he hek
  obtain ⟨p, hp⟩ := h e he
  have hnone := hkey e.value
  rw [← of_decide_eq_true hek] at hnone
  exact absurd (hp.symm.trans hnone) nofun

theorem headerPart_status (value : String) : headerPart ⟨metaRespStatus, value⟩ = none := by
  unfold headerPart classifyResponseMeta
  dsimp only
  rw [if_pos rfl]
  cases (parseU16 value.toList).filter fun code ↦ 100 ≤ code ∧ code ≤ 999 <;> rfl

theorem headerPart_errorCode (value : String) : headerPart ⟨metaErrorCode, value⟩ = none := by
  unfold headerPart classifyResponseMeta
  dsimp only
  rw [if_neg (by decide), if_neg (by decide), if_neg (by decide), if_neg (by decide)]

theorem headersFromMeta_of_headers {entries : List MetaEntry}
    (h : ∀ e ∈ entries, ∃ p, headerPart e = some p) :
    headersFromMeta entries = .ok (putHeaderPairs [] (entries.filterMap headerPart)) := by
  have hparts (es : List MetaEntry) (hes : ∀ e ∈ es, ∃ p, headerPart e = some p) :
      responseMetaParts es =
        .ok ((es.filterMap headerPart).map fun p ↦ .header p.1 p.2) := by
    induction es with
    | nil => rfl
    | cons e es ih =>
      obtain ⟨⟨p, hp⟩, hes⟩ := forall_mem_cons.mp hes
      rw [responseMetaParts, headerPart_eq_some.mp hp, ih hes, filterMap_cons_some hp]
      rfl
  rw [headersFromMeta, hparts entries h, Except.map, foldl_map]
  rfl

theorem collect_unsendableStream (errorBody : ErrorCode → String → Option String → Bytes)
    (entries : List MetaEntry) :
    terminalToHttpResponse errorBody (collectBuffered (unsendableStream entries)) =
      unsendableResponse errorBody entries := by
  have hheaders (e : MetaEntry) (he : e ∈ unsendableResponseMeta entries) :=
    unsendableResponseMeta_header he
  have hpairs : nonContentTypeHeadersFromMeta (unsendableResponseMeta entries) =
      .ok (unsendableHeaders entries) := by
    rw [nonContentTypeHeadersFromMeta, headersFromMeta_of_headers hheaders, ← unsendableHeaders_eq,
      Except.map]
    refine congrArg _ (filter_eq_self.mpr fun p hp ↦ ?_)
    exact decide_eq_true ((wellFormed_unsendableHeaders entries).2 p hp)
  have hstatus := metaGet_eq_none_of_headers headerPart_status hheaders
  have hcode := metaGet_eq_none_of_headers headerPart_errorCode hheaders
  have hcollect : collectBuffered (unsendableStream entries) =
      .error (.error ⟨.internal, "internal server error", unsendableResponseMeta entries⟩) := rfl
  rw [hcollect, terminalToHttpResponse, errorToHttpResponse, hpairs, unsendableResponse]
  unfold renderError resolveErrorStatus resolveStatus WaferError.detailCode
  rw [hstatus, hcode]
  rfl

/-! ## Opening -/

theorem openResponse_of_not_streamed {o : OutputStream}
    (h : ¬(declaresStreaming o.takeLeadingMeta.1 = true ∧
      o.takeLeadingMeta.2.events.head?.any StreamEvent.isChunk = true)) :
    ∃ out, openResponse o = .buffered out ∧ out.events = o.events := by
  obtain ⟨hpeek, hfirst⟩ := events_peek o.takeLeadingMeta.2
  refine ⟨o.takeLeadingMeta.2.peek.2.prepend (o.takeLeadingMeta.1.map .metadata), ?_, ?_⟩
  · have hif : (!declaresStreaming o.takeLeadingMeta.1 ||
        !o.takeLeadingMeta.2.peek.1.any StreamEvent.isChunk) = true := by
      rw [hfirst, Bool.or_eq_true, Bool.not_eq_true', Bool.not_eq_true', ← Bool.not_eq_true,
        ← Bool.not_eq_true, ← not_and_or]
      exact h
    exact if_pos hif
  · rw [events_prepend, hpeek, events_takeLeadingMeta]

theorem openResponse_of_streamed {o : OutputStream}
    (hd : declaresStreaming o.takeLeadingMeta.1 = true)
    (hb : o.takeLeadingMeta.2.events.head?.any StreamEvent.isChunk = true) :
    openResponse o =
      match headersFromMeta o.takeLeadingMeta.1, contentLength o.takeLeadingMeta.1 with
      | .error _, _ | _, .error _ => .buffered (unsendableStream o.takeLeadingMeta.1)
      | .ok headers, .ok none =>
        openStreamed o.takeLeadingMeta.1 headers none o.takeLeadingMeta.2.events
      | .ok headers, .ok (some declared) =>
        match checkDeclaredLength declared o.takeLeadingMeta.2.events with
        | (.fits, events) => openStreamed o.takeLeadingMeta.1 headers (some declared) events
        | (.exceeded _, _) => .buffered (unsendableStream o.takeLeadingMeta.1)
        | (.noBody, events) =>
          .buffered ((OutputStream.ofEvents events).prepend
            (o.takeLeadingMeta.1.map .metadata)) := by
  obtain ⟨hpeek, hfirst⟩ := events_peek o.takeLeadingMeta.2
  have hif : ¬(!declaresStreaming o.takeLeadingMeta.1 ||
      !o.takeLeadingMeta.2.peek.1.any StreamEvent.isChunk) = true := by
    rw [hfirst, hd, hb]
    decide
  rw [← hpeek]
  exact if_neg hif

theorem openResponse_of_refuses {o : OutputStream} (h : Refuses o) :
    openResponse o = .buffered (unsendableStream o.takeLeadingMeta.1) := by
  rw [openResponse_of_streamed h.declares h.body]
  rcases h.reason with hsend | ⟨invalid, hlength⟩ | ⟨declared, hlength, hexceeds⟩
  · obtain ⟨invalid, hheaders⟩ := headersFromMeta_eq_error_iff.mpr hsend
    rw [hheaders]
  · rw [hlength]
    cases headersFromMeta o.takeLeadingMeta.1 <;> rfl
  · obtain ⟨invalid, hcheck⟩ := checkDeclaredLength_exceeded_iff.mpr hexceeds
    rw [hlength]
    cases headersFromMeta o.takeLeadingMeta.1 with
    | error _ => rfl
    | ok headers =>
      dsimp only
      split
      next heq => rw [heq] at hcheck; cases hcheck
      · rfl
      next heq => rw [heq] at hcheck; cases hcheck

theorem collectBuffered_of_not_refuses {o out : OutputStream} (hopen : openResponse o = .buffered out)
    (h : ¬Refuses o) : collectBuffered out = collectBuffered o := by
  by_cases hstream : declaresStreaming o.takeLeadingMeta.1 = true ∧
      o.takeLeadingMeta.2.events.head?.any StreamEvent.isChunk = true
  · obtain ⟨hd, hb⟩ := hstream
    have hsplit := events_takeLeadingMeta o
    rw [openResponse_of_streamed hd hb] at hopen
    split at hopen
    next invalid hheaders =>
      exact absurd ⟨hd, hb, .inl (headersFromMeta_eq_error_iff.mp ⟨invalid, hheaders⟩)⟩ h
    next invalid hlength _ => exact absurd ⟨hd, hb, .inr (.inl ⟨invalid, hlength⟩)⟩ h
    · cases hopen
    next headers declared _ hlength =>
      split at hopen
      · cases hopen
      next invalid _ hcheck =>
        refine absurd ⟨hd, hb, .inr (.inr ⟨declared, hlength, ?_⟩)⟩ h
        exact checkDeclaredLength_exceeded_iff.mp ⟨invalid, by rw [hcheck]⟩
      next events hcheck =>
        obtain ⟨rfl, rfl⟩ := checkDeclaredLength_eq_noBody hcheck
        cases hopen
        have hleading : (!o.takeLeadingMeta.1.isEmpty) = true := by
          cases hnil : o.takeLeadingMeta.1 with
          | nil =>
            rw [hnil, contentLength_nil] at hlength
            cases hlength
          | cons e es => rfl
        have hput (es : List StreamEvent) : (OutputStream.ofEvents es).events = es :=
          filterMap_some
        rw [collectBuffered, collectBuffered, ← hsplit, events_prepend, hput, collectFrom_metadata,
          collectFrom_metadata, hleading]
        exact collectFrom_checkEmptyBody _ _ _
  · obtain ⟨out', hopen', hevents⟩ := openResponse_of_not_streamed hstream
    rw [hopen'] at hopen
    cases hopen
    rw [collectBuffered, collectBuffered, hevents]

/-- **Opening a response loses nothing.** What is not streamed collects to what the stream would
have collected to, unless the response is refused; and a response that is refused is rendered as the
answer to its leading metadata. -/
theorem openResponse_loses_nothing (errorBody : ErrorCode → String → Option String → Bytes)
    (o : OutputStream) :
    (∀ out, openResponse o = .buffered out → ¬Refuses o → collectBuffered out = collectBuffered o) ∧
      (Refuses o → ∃ out, openResponse o = .buffered out ∧
        terminalToHttpResponse errorBody (collectBuffered out) =
          unsendableResponse errorBody o.takeLeadingMeta.1) :=
  ⟨fun _ hopen h ↦ collectBuffered_of_not_refuses hopen h,
    fun h ↦ ⟨_, openResponse_of_refuses h, collect_unsendableStream errorBody _⟩⟩

def emptyDownload : OutputStream :=
  .ofEvents [.metadata ⟨metaRespStream, "1"⟩, .metadata ⟨metaRespContentLength, "0"⟩, .chunk [],
    .metadata ⟨metaRespStatus, "500"⟩, .chunk [], .error (.new .unavailable "the store is gone")]

example : ∃ out, openResponse emptyDownload = .buffered out ∧
    collectBuffered out = collectBuffered emptyDownload := ⟨_, rfl, rfl⟩

end WaferRun
