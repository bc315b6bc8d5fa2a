import WaferRun.Flow.Streaming

/-!
# A response that passes through a flow

A transport takes the first status entry of a response and its last content type. A flow lays the
response over its message first, which keeps one entry for each key, where the key was first used
and with the value it was last given. So a response reads the same before and after a flow only if
its first status is its last, and if the content type that was given last is the one that stands
last (`rendered_throughFlow_iff`).
-/

open List Option

namespace WaferRun

open Text

/-! ## What a transport renders -/

def contentTypeOf (headers : List (String × String)) : Option String :=
  (headers.find? fun h ↦ h.1 = "Content-Type").map Prod.snd

def ResponseMetaPart.contentTypeValue : ResponseMetaPart → Option String
  | .contentType v => some v
  | _ => none

theorem contentTypeOf_append {headers : List (String × String)} {name value : String}
    (h : name ≠ "Content-Type") :
    contentTypeOf (headers ++ [(name, value)]) = contentTypeOf headers := by
  have hlast : [(name, value)].find? (fun h ↦ h.1 = "Content-Type") = none :=
    List.find?_eq_none.mpr fun p hp hname ↦ by
      rw [mem_singleton.mp hp] at hname
      exact h (of_decide_eq_true hname)
  rw [contentTypeOf, List.find?_append, hlast, or_none]
  rfl

theorem contentTypeOf_putHeaderPair_self {headers : List (String × String)} (v : String)
    (hspelled : ∀ h ∈ headers, eqIgnoreAsciiCase h.1.toList "Content-Type".toList = true →
      h.1 = "Content-Type") :
    contentTypeOf (putHeaderPair "Content-Type" v headers) = some v := by
  induction headers with
  | nil => rfl
  | cons first rest ih =>
    obtain ⟨hfirst, hrest⟩ := forall_mem_cons.mp hspelled
    rw [putHeaderPair]
    split_ifs with heq
    · rfl
    · have hne : ¬first.1 = "Content-Type" := by
        intro hname
        rw [hname] at heq
        exact heq (by decide)
      rw [contentTypeOf, List.find?_cons_of_neg (by simpa using hne)]
      exact ih hrest

theorem contentTypeOf_putHeaderPair_of_ne {headers : List (String × String)} {name : String}
    (v : String) (h : eqIgnoreAsciiCase name.toList "content-type".toList = false) :
    contentTypeOf (putHeaderPair name v headers) = contentTypeOf headers := by
  have hname : ¬name = "Content-Type" := by
    rintro rfl
    revert h
    decide
  induction headers with
  | nil =>
    rw [putHeaderPair, contentTypeOf, List.find?_cons_of_neg (by simpa using hname)]
    rfl
  | cons first rest ih =>
    rw [putHeaderPair]
    split_ifs with heq
    · have hfirst : ¬first.1 = "Content-Type" := by
        intro hct
        simp only [eqIgnoreAsciiCase, decide_eq_true_eq, decide_eq_false_iff_not] at heq h
        rw [← heq, hct] at h
        exact h (by decide)
      rw [contentTypeOf, contentTypeOf, List.find?_cons_of_neg (by simpa using hname),
        List.find?_cons_of_neg (by simpa using hfirst)]
    · by_cases hct : first.1 = "Content-Type"
      · rw [contentTypeOf, contentTypeOf, List.find?_cons_of_pos (by simpa using hct),
          List.find?_cons_of_pos (by simpa using hct)]
      · rw [contentTypeOf, contentTypeOf, List.find?_cons_of_neg (by simpa using hct),
          List.find?_cons_of_neg (by simpa using hct)]
        exact ih

theorem contentTypeOf_addPart {headers : List (String × String)} {part : ResponseMetaPart}
    (hwf : WellFormedHeaders headers) (hpart : ValidPart part) :
    contentTypeOf (addPart headers part) = part.contentTypeValue.or (contentTypeOf headers) := by
  match part, hpart with
  | .status _, _ => rfl
  | .setCookie v, _ =>
    have hne : ¬"Set-Cookie" = "Content-Type" := by decide
    exact contentTypeOf_append hne
  | .contentType v, _ =>
    refine contentTypeOf_putHeaderPair_self v fun h hh hname ↦ hwf.contentType h hh ?_
    simp only [eqIgnoreAsciiCase, decide_eq_true_eq] at hname ⊢
    rw [hname]
    decide
  | .header name v, ⟨_, hct, _⟩ => exact contentTypeOf_putHeaderPair_of_ne v hct

theorem contentTypeOf_foldl_addPart {parts : List ResponseMetaPart}
    (hp : ∀ part ∈ parts, ValidPart part) {headers : List (String × String)}
    (hwf : WellFormedHeaders headers) :
    contentTypeOf (parts.foldl addPart headers) =
      (parts.filterMap ResponseMetaPart.contentTypeValue).getLast?.or (contentTypeOf headers) := by
  induction parts generalizing headers with
  | nil => rfl
  | cons part parts ih =>
    obtain ⟨hpart, hparts⟩ := forall_mem_cons.mp hp
    rw [foldl_cons, ih hparts (hwf.addPart hpart), contentTypeOf_addPart hwf hpart,
      filterMap_cons]
    rcases part.contentTypeValue with - | v
    · rfl
    · rw [List.getLast?_cons]
      cases (parts.filterMap ResponseMetaPart.contentTypeValue).getLast? <;> rfl

theorem contentTypeValue_of_classify {e : MetaEntry} {part : Option ResponseMetaPart}
    (h : classifyResponseMeta e = .ok part) :
    part.bind ResponseMetaPart.contentTypeValue =
      if isContentTypeEntry e then some e.value else none := by
  have hdisjoint : metaRespCookiePrefix.toList <+: e.key.toList →
      ¬metaRespHeaderPrefix.toList <+: e.key.toList := by
    intro hcookie hheader
    have := prefix_of_prefix_length_le hheader hcookie (by decide)
    revert this
    decide
  unfold isContentTypeEntry
  unfold classifyResponseMeta at h
  simp only [List.isPrefixOf_iff_prefix, Bool.or_eq_true, decide_eq_true_eq, Bool.and_eq_true]
  by_cases hstatus : e.key = metaRespStatus
  · have hnot : ¬(e.key = metaRespContentType ∨ metaRespHeaderPrefix.toList <+: e.key.toList ∧
        eqIgnoreAsciiCase (e.key.toList.drop metaRespHeaderPrefix.toList.length)
          "content-type".toList = true) := by
      rw [hstatus]
      decide
    rw [if_neg hnot]
    simp only [hstatus, if_true] at h
    split at h
    · cases h
      rfl
    · cases h
  by_cases hcookie : metaRespCookiePrefix.toList <+: e.key.toList
  · have hct : e.key ≠ metaRespContentType := by
      intro hct
      rw [hct] at hcookie
      revert hcookie
      decide
    rw [if_neg (by simp [hct, hdisjoint hcookie])]
    simp only [hstatus, hcookie, if_true, if_false] at h
    split_ifs at h
    cases h
    rfl
  by_cases hheader : metaRespHeaderPrefix.toList <+: e.key.toList
  · have hct : e.key ≠ metaRespContentType := by
      intro hct
      rw [hct] at hheader
      revert hheader
      decide
    simp only [hstatus, hcookie, hheader, hct, if_true, if_false, true_and, false_or] at h ⊢
    split_ifs at h ⊢ <;> cases h <;> rfl
  · simp only [hstatus, hcookie, hheader, if_false, false_and, or_false] at h ⊢
    split_ifs at h ⊢ <;> cases h <;> rfl

theorem isContentTypeEntry_of_transportOwned {e : MetaEntry} {invalid : InvalidResponseMeta}
    (h : classifyResponseMeta e = .error invalid) (hkind : invalid.kind = .transportOwned) :
    isContentTypeEntry e = false := by
  unfold classifyResponseMeta at h
  by_cases hstatus : e.key = metaRespStatus
  · simp only [hstatus, if_true] at h
    split at h <;> cases h
    cases hkind
  · simp only [hstatus, if_false] at h
    split_ifs at h with hcookie _ hheader hname hlisted <;> cases h <;> try cases hkind
    have hct : e.key ≠ metaRespContentType := by
      intro hct
      rw [hct] at hheader
      revert hheader
      decide
    have hother : eqIgnoreAsciiCase (e.key.toList.drop metaRespHeaderPrefix.toList.length)
        "content-type".toList = false := by
      rw [← Bool.not_eq_true]
      intro heq
      simp only [eqIgnoreAsciiCase, decide_eq_true_eq] at heq
      simp only [isListed, eqIgnoreAsciiCase, heq] at hlisted
      revert hlisted
      decide
    rw [isContentTypeEntry, hother, Bool.and_false, Bool.or_false, decide_eq_false hct]

theorem filterMap_contentTypeValue {entries : List MetaEntry} {parts : List ResponseMetaPart}
    (h : responseMetaParts entries = .ok parts) :
    parts.filterMap ResponseMetaPart.contentTypeValue =
      (entries.filter isContentTypeEntry).map MetaEntry.value := by
  induction entries generalizing parts with
  | nil =>
    cases h
    rfl
  | cons e es ih =>
    rw [responseMetaParts] at h
    split at h
    · next part hpart =>
      obtain ⟨rest, hrest, rfl⟩ := Fallible.map_eq_ok.mp h
      have hhead : part.toList.filterMap ResponseMetaPart.contentTypeValue =
          if isContentTypeEntry e then [e.value] else [] := by
        have hvalue := contentTypeValue_of_classify hpart
        rcases part with - | part
        · split_ifs at hvalue ⊢
          · cases hvalue
          · rfl
        · rw [bind_some] at hvalue
          rw [toList_some, filterMap_cons, hvalue]
          split_ifs <;> rfl
      rw [filterMap_append, ih hrest, hhead, filter_cons]
      split_ifs <;> rfl
    · next invalid hinvalid =>
      split_ifs at h with hkind
      rw [ih h, filter_cons, isContentTypeEntry_of_transportOwned hinvalid hkind,
        if_neg Bool.false_ne_true]

section

variable (errorBody : ErrorCode → String → Option String → Bytes)

theorem rendered_bufferedToHttpResponse {entries : List MetaEntry} (h : ∀ e ∈ entries, Sendable e)
    (body : Bytes) :
    (bufferedToHttpResponse errorBody ⟨body, entries⟩).status = resolveStatus entries 200 ∧
      contentTypeOf (bufferedToHttpResponse errorBody ⟨body, entries⟩).headers =
        some ((leadingContentType entries).getD defaultResponseContentType) := by
  obtain ⟨parts, hparts⟩ := responseMetaParts_ok h
  have hheaders : headersFromMeta entries = .ok (parts.foldl addPart []) := by
    rw [headersFromMeta, hparts]
    rfl
  have hct : contentTypeOf (parts.foldl addPart []) = leadingContentType entries := by
    rw [contentTypeOf_foldl_addPart (validPart_of_mem hparts) .nil, filterMap_contentTypeValue hparts,
      leadingContentType_eq, List.getLast?_map]
    exact or_none
  rw [bufferedToHttpResponse, hheaders]
  refine ⟨rfl, ?_⟩
  dsimp only
  split_ifs with hany
  · obtain ⟨p, hp⟩ := isSome_iff_exists.mp (List.any_eq_true.mp hany |> fun h ↦
      List.find?_isSome.mpr h)
    rw [← hct, contentTypeOf, hp]
    rfl
  · have hnone : (parts.foldl addPart []).find? (fun h ↦ h.1 = "Content-Type") = none :=
      List.find?_eq_none.mpr fun p hp hname ↦ hany (List.any_eq_true.mpr ⟨p, hp, hname⟩)
    rw [← hct, contentTypeOf, contentTypeOf, List.find?_append, hnone]
    rfl

/-! ## What passing through a flow changes -/

/-- The value that was last given to the spelling of the content type that came up last. -/
def standingContentType (top : List MetaEntry) : Option String :=
  let named := top.filter isContentTypeEntry
  (newKeys [] named).getLast?.bind (lastValue named)

theorem standsLast_nil (top : List MetaEntry) :
    standsLast [] top = (newKeys [] top).getLast?.bind (lastValue top) := by
  have hkeys : keysOf [] = [] := rfl
  rw [standsLast, hkeys]
  rcases (newKeys [] top).getLast? with - | key <;> rfl

theorem metaGet_status_layOver {st : ExecState} (hst : st.msg.entries = [])
    (top : List MetaEntry) :
    metaGet (responseMetaOf (layOver st top).msg) metaRespStatus = lastValue top metaRespStatus := by
  have hresp : ∀ e : MetaEntry, decide (e.key = metaRespStatus) = true →
      "resp.".toList <+: e.key.toList := by
    intro e he
    rw [of_decide_eq_true he]
    decide
  rw [metaGet_eq, filter_responseMetaOf _ hresp, layOver_entries, filter_key_overlay (by decide),
    hst, lastValue]
  cases (top.filter fun e ↦ e.key = metaRespStatus).getLast? <;> rfl

theorem sendable_layOver {st : ExecState} (hst : st.msg.entries = []) {top : List MetaEntry}
    (ht : ∀ e ∈ top, Sendable e) : ∀ e ∈ responseMetaOf (layOver st top).msg, Sendable e := by
  refine (forall_sendable_layOver_iff st ht).mpr fun key e he ↦ ?_
  rw [hst] at he
  simp [staying] at he

theorem parseU16_of_sendable {e : MetaEntry} (h : Sendable e) (hkey : e.key = metaRespStatus) :
    ∃ code, parseU16 e.value.toList = some code ∧ 100 ≤ code ∧ code ≤ 999 := by
  have hsome : ((parseU16 e.value.toList).filter fun code ↦ 100 ≤ code ∧ code ≤ 999).isSome := by
    by_contra hnone
    rw [not_isSome_iff_eq_none] at hnone
    refine h ⟨e.key, "status is not an integer in 100..=999", .unsendable⟩ ?_ rfl
    rw [classifyResponseMeta, if_pos hkey, hnone]
  obtain ⟨code, hcode⟩ := isSome_iff_exists.mp hsome
  obtain ⟨hparsed, hrange⟩ := filter_eq_some_iff.mp hcode
  exact ⟨code, hparsed, of_decide_eq_true hrange⟩

theorem resolveStatus_eq_iff {top : List MetaEntry} (ht : ∀ e ∈ top, Sendable e) :
    resolveStatus top 200 =
        ((((lastValue top metaRespStatus).bind fun code ↦ parseU16 code.toList).filter
          fun code ↦ 100 ≤ code ∧ code ≤ 999).getD 200) ↔
      (metaGet top metaRespStatus).map (fun code ↦ parseU16 code.toList) =
        (lastValue top metaRespStatus).map fun code ↦ parseU16 code.toList := by
  have hvalid : ∀ e ∈ top.filter (fun e ↦ e.key = metaRespStatus), ∃ code,
      parseU16 e.value.toList = some code ∧ 100 ≤ code ∧ code ≤ 999 := fun e he ↦
    have ⟨hmem, hkey⟩ := mem_filter.mp he
    parseU16_of_sendable (ht e hmem) (of_decide_eq_true hkey)
  rw [resolveStatus, metaGet_eq, lastValue]
  rcases hnamed : top.filter (fun e ↦ e.key = metaRespStatus) with - | ⟨e, es⟩
  · rw [hnamed]
    exact iff_of_true rfl rfl
  · rw [hnamed] at hvalid ⊢
    obtain ⟨first, hfirst, hfirst'⟩ := hvalid e mem_cons_self
    obtain ⟨l, hl⟩ : ∃ l, (e :: es).getLast? = some l :=
      isSome_iff_exists.mp (List.getLast?_isSome.mpr (cons_ne_nil e es))
    obtain ⟨last, hlast, hlast'⟩ := hvalid l (List.mem_of_getLast? hl)
    simp [hl, hfirst, hlast, hfirst', hlast', Option.filter]

theorem standingContentType_isSome (top : List MetaEntry) :
    (standingContentType top).isSome = (leadingContentType top).isSome := by
  rw [standingContentType, leadingContentType_eq, isSome_map]
  rcases hnamed : top.filter isContentTypeEntry with - | ⟨e, es⟩
  · rfl
  · have hlast : ((e :: es).getLast?).isSome = true :=
      List.getLast?_isSome.mpr (cons_ne_nil e es)
    obtain ⟨key, hkey⟩ : ∃ key, (newKeys [] (e :: es)).getLast? = some key := by
      refine isSome_iff_exists.mp (List.getLast?_isSome.mpr ?_)
      rw [newKeys, if_neg not_mem_nil]
      exact cons_ne_nil _ _
    have hset := (mem_newKeys (List.mem_of_getLast? hkey)).2
    rw [hkey, hlast, bind_some, lastValue, isSome_map]
    exact List.getLast?_isSome.mpr (filter_key_ne_nil hset)

/-- **A response reads the same before and after a flow** over an empty message exactly if its first
status is its last, and if its last content type is the one that stands last. -/
theorem rendered_throughFlow_iff {st : ExecState} (hst : st.msg.entries = [])
    {top : List MetaEntry} (ht : ∀ e ∈ top, Sendable e) (body : Bytes) :
    let direct := bufferedToHttpResponse errorBody ⟨body, top⟩
    let through := bufferedToHttpResponse errorBody ⟨body, responseMetaOf (layOver st top).msg⟩
    direct.status = through.status ∧
        contentTypeOf direct.headers = contentTypeOf through.headers ↔
      (metaGet top metaRespStatus).map (fun code ↦ parseU16 code.toList) =
          (lastValue top metaRespStatus).map (fun code ↦ parseU16 code.toList) ∧
        leadingContentType top = standingContentType top := by
  intro direct through
  obtain ⟨hstatus, hct⟩ := rendered_bufferedToHttpResponse errorBody ht body
  obtain ⟨hstatus', hct'⟩ :=
    rendered_bufferedToHttpResponse errorBody (sendable_layOver hst ht) body
  have hstanding : leadingContentType (responseMetaOf (layOver st top).msg) =
      standingContentType top := by
    rw [leadingContentType_layOver, hst]
    exact standsLast_nil _
  rw [hstatus, hct, hstatus', hct', hstanding]
  refine and_congr ?_ ?_
  · rw [← resolveStatus_eq_iff ht, resolveStatus, resolveStatus, metaGet_status_layOver hst]
  · have hsome := standingContentType_isSome top
    rcases hl : leadingContentType top with - | v <;>
      rcases hs : standingContentType top with - | v' <;> rw [hl, hs] at hsome
    · exact iff_of_true rfl rfl
    · cases hsome
    · cases hsome
    · rfl

end

open EventStream in
/-- A page that names its status once and its content type under both keys, in one order. -/
theorem rendered_throughFlow_page :
    let top := [⟨metaRespStatus, "404"⟩, ⟨metaRespContentType, "text/html"⟩,
      ⟨"resp.header.Content-Type", "text/plain"⟩]
    let direct := bufferedToHttpResponse (fun _ _ _ ↦ []) ⟨[], top⟩
    let through := bufferedToHttpResponse (fun _ _ _ ↦ [])
      ⟨[], responseMetaOf (layOver (stateOf []) top).msg⟩
    direct.status = through.status ∧
      contentTypeOf direct.headers = contentTypeOf through.headers :=
  (rendered_throughFlow_iff (fun _ _ _ ↦ []) rfl (by decide) []).mpr (by decide)

open EventStream in
/-- A response with two statuses is sent with the first of them, or after a flow with the second;
and a content type that is given again under the first of two keys is the last, but does not stand
last. -/
theorem rendered_throughFlow_changed :
    ¬∀ (errorBody : ErrorCode → String → Option String → Bytes) (st : ExecState)
      (top : List MetaEntry) (body : Bytes), st.msg.entries = [] → (∀ e ∈ top, Sendable e) →
        let direct := bufferedToHttpResponse errorBody ⟨body, top⟩
        let through := bufferedToHttpResponse errorBody
          ⟨body, responseMetaOf (layOver st top).msg⟩
        direct.status = through.status ∧
          contentTypeOf direct.headers = contentTypeOf through.headers := by
  intro hclaim
  have h := hclaim (fun _ _ _ ↦ []) (stateOf [])
    [⟨metaRespStatus, "404"⟩, ⟨metaRespContentType, "text/html"⟩,
      ⟨"resp.header.Content-Type", "text/plain"⟩, ⟨metaRespContentType, "application/json"⟩,
      ⟨metaRespStatus, "200"⟩] [] rfl (by decide)
  revert h
  decide

end WaferRun
