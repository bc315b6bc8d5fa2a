import WaferRun.Wasm.GuestMeta

/-!
# Metadata on its way out of a guest

Whatever a guest produces passes `sanitizeGuestEgress`. The identity is the host's: what the guest
wrote of it is dropped and the inbound identity put back. Of the sensitive headers the guest keeps
those it may write, and when its message goes on to the next step the inbound value of the others is
put back too.

What a header means is decided elsewhere, by the classification of response entries and by the
accessors of a message. Both read the content type, and the accessors the host, under keys that
carry no header here. `EgressContained` states what is owed for every header they read, and
`egressContained_iff` that it is delivered exactly if the guest leaves these keys alone whenever it
may not write the header.
-/

open List

namespace WaferRun.Wasm

open Text

variable {key name : String} {e : MetaEntry}

inductive GuestEgress
  | respond
  | error
  | continue
  | call
deriving DecidableEq, Repr

structure SanitizedEgress where
  entries : List MetaEntry
  stripped : List String
  forged : List String
deriving DecidableEq, Repr

def survives (caps : BlockCapabilities) (e : MetaEntry) : Bool :=
  !isProtectedMetaKey e.key && (unlistedHeader caps.headers.writable caps e.key).isNone

def sanitizeGuestEgress (entries : List MetaEntry) (caps : BlockCapabilities)
    (hostOwned : HostOwnedMeta) (egress : GuestEgress) : SanitizedEgress where
  entries :=
    entries.filter (survives caps) ++ hostOwned.identity ++
      match egress with
      | .continue => hostOwned.sensitiveHeaders.filter fun e ↦
          (unlistedHeader caps.headers.writable caps e.key).isSome
      | .respond | .error | .call => []
  -- an inbound entry handed back unchanged is no attempt to write its header
  stripped := (entries.filterMap fun e ↦
    if isProtectedMetaKey e.key || e ∈ hostOwned.sensitiveHeaders then none
    else unlistedHeader caps.headers.writable caps e.key).foldl pushDistinct []
  forged := ((entries.filter fun e ↦ isProtectedMetaKey e.key).map MetaEntry.key).foldl
    pushDistinct []

/-! ## The headers others read -/

def responseHeader (e : MetaEntry) : Option String :=
  match classifyResponseMeta e with
  | .ok (some (.header name _)) => some (toAsciiLowercase name)
  | .ok (some (.setCookie _)) => some "set-cookie"
  | .ok (some (.contentType _)) => some "content-type"
  | .ok (some (.status _)) | .ok none | .error _ => none

def mirroredHeader (key : String) : Option String :=
  if key = metaRespContentType ∨ key = metaHttpContentType ∨ key = metaReqContentType then
    some "content-type"
  else if key = metaHttpHost then some "host"
  else none

def requestHeader (e : MetaEntry) : Option String :=
  if metaHttpHeaderPrefix.toList <+: e.key.toList then
    some (String.ofList (asciiLower (e.key.toList.drop metaHttpHeaderPrefix.toList.length)))
  else if e.key = metaRespContentType then none
  else mirroredHeader e.key

def Unwritable (caps : BlockCapabilities) (name : String) : Prop :=
  isSensitiveHeader name caps.headers.masked = true ∧
    isListedHeader caps.headers.writable name = false

instance (caps : BlockCapabilities) (name : String) : Decidable (Unwritable caps name) :=
  inferInstanceAs (Decidable (_ ∧ _))

/-- An entry that is neither identity nor about a header the guest may not write. -/
def Unrestricted (caps : BlockCapabilities) (e : MetaEntry) : Prop :=
  isProtectedMetaKey e.key = false ∧ (∀ name ∈ headerNameFromMetaKey e.key, ¬Unwritable caps name) ∧
    ∀ name ∈ mirroredHeader e.key, ¬Unwritable caps name

instance (caps : BlockCapabilities) (e : MetaEntry) : Decidable (Unrestricted caps e) :=
  inferInstanceAs (Decidable (_ ∧ _ ∧ _))

def guestEgressMeta (caps : BlockCapabilities) (inbound guest : List MetaEntry)
    (egress : GuestEgress) : List MetaEntry :=
  (sanitizeGuestEgress guest caps (prepareGuestInbound inbound caps).hostOwned egress).entries

structure EgressContained (caps : BlockCapabilities) (inbound guest : List MetaEntry)
    (egress : GuestEgress) : Prop where
  /-- The identity is the inbound one. -/
  identity :
    ((guestEgressMeta caps inbound guest egress).filter fun e ↦ isProtectedMetaKey e.key) =
      inbound.filter fun e ↦ isProtectedMetaKey e.key
  /-- A header read from an entry of the guest is one it may write. -/
  written : ∀ e ∈ guest, survives caps e = true → ∀ name,
    responseHeader e = some name ∨ requestHeader e = some name → ¬Unwritable caps name
  /-- The next step finds the headers the guest may not write as they came in. -/
  restored : egress = .continue → ∀ name, Unwritable caps name →
    ((guestEgressMeta caps inbound guest egress).filter fun e ↦
        headerNameFromMetaKey e.key = some name) =
      inbound.filter fun e ↦ headerNameFromMetaKey e.key = some name
  mirrored : egress = .continue → ∀ name, Unwritable caps name →
    ((guestEgressMeta caps inbound guest egress).filter fun e ↦ mirroredHeader e.key = some name) =
      inbound.filter fun e ↦ mirroredHeader e.key = some name
  /-- Everything else the guest produced survives, in order, and nothing else is added to it. -/
  others :
    ((guestEgressMeta caps inbound guest egress).filter fun e ↦ Unrestricted caps e) =
      guest.filter fun e ↦ Unrestricted caps e
  /-- Sanitising again changes nothing. -/
  again : guestEgressMeta caps inbound (guestEgressMeta caps inbound guest egress) egress =
    guestEgressMeta caps inbound guest egress

/-- The guest leaves the mirrors of a header it may not write alone: it produces no entry under them
that is read, and hands the next step the entries it was given. -/
structure MirrorsLeftAlone (caps : BlockCapabilities) (inbound guest : List MetaEntry)
    (egress : GuestEgress) : Prop where
  unread : ∀ e ∈ guest, ∀ name ∈ mirroredHeader e.key, Unwritable caps name →
    responseHeader e = none ∧ requestHeader e = none
  handedBack : egress = .continue → ∀ name, Unwritable caps name →
    (guest.filter fun e ↦ mirroredHeader e.key = some name) =
      inbound.filter fun e ↦ mirroredHeader e.key = some name

/-! ## Keys -/

theorem not_protected_of_opens {p : List Char} (h : p <+: asciiLower key.toList)
    (hlen : 5 ≤ p.length) (hp : p.take 5 ≠ "auth.".toList) : isProtectedMetaKey key = false := by
  obtain ⟨t, ht⟩ := h
  have htake : asciiLower (key.toList.take 5) = p.take 5 := by
    rw [asciiLower, map_take]
    change (asciiLower key.toList).take 5 = p.take 5
    rw [← ht, take_append_of_le_length hlen]
  rw [isProtectedMetaKey, htake, decide_eq_false hp]

theorem not_protected_of_header (h : headerNameFromMetaKey key = some name) :
    isProtectedMetaKey key = false := by
  unfold headerNameFromMetaKey at h
  by_cases h₁ : metaHttpHeaderPrefix.toList <+: asciiLower key.toList
  · exact not_protected_of_opens h₁ (by decide) (by decide)
  · by_cases h₂ : metaRespHeaderPrefix.toList <+: asciiLower key.toList
    · exact not_protected_of_opens h₂ (by decide) (by decide)
    · by_cases h₃ : metaRespCookiePrefix.toList <+: asciiLower key.toList
      · exact not_protected_of_opens h₃ (by decide) (by decide)
      · simp [h₁, h₂, h₃] at h

theorem of_mirroredHeader (h : mirroredHeader key = some name) :
    headerNameFromMetaKey key = none ∧ isProtectedMetaKey key = false := by
  have hkey :
      key ∈ [metaRespContentType, metaHttpContentType, metaReqContentType, metaHttpHost] := by
    simp only [mirroredHeader] at h
    split_ifs at h with h₁ h₂
    · rcases h₁ with rfl | rfl | rfl <;> decide
    · rw [h₂]
      decide
  simp only [mem_cons, not_mem_nil, or_false] at hkey
  rcases hkey with rfl | rfl | rfl | rfl <;> decide

theorem asciiLower_of_opens {p s : List Char} (hp : asciiLower p = p) (h : p <+: s) :
    p <+: asciiLower s ∧ (asciiLower s).drop p.length = asciiLower (s.drop p.length) := by
  obtain ⟨t, rfl⟩ := h
  have : asciiLower (p ++ t) = p ++ asciiLower t := by
    rw [asciiLower, map_append, ← asciiLower, hp, asciiLower]
  rw [this, drop_left, drop_left]
  exact ⟨prefix_append p _, rfl⟩

theorem not_opens_of_opens {p q s : List Char} (h : p <+: s) (hpq : ¬p <+: q) (hqp : ¬q <+: p) :
    ¬q <+: s :=
  fun h' ↦ ( prefix_or_prefix_of_prefix h h').elim hpq hqp

theorem headerNameFromMetaKey_of_httpPrefix (h : metaHttpHeaderPrefix.toList <+: key.toList) :
    headerNameFromMetaKey key = some (String.ofList
      (asciiLower (key.toList.drop metaHttpHeaderPrefix.toList.length))) := by
  obtain ⟨hopen, hrest⟩ := asciiLower_of_opens (by decide) h
  rw [headerNameFromMetaKey, if_pos hopen, hrest]

theorem headerNameFromMetaKey_of_respPrefix (h : metaRespHeaderPrefix.toList <+: key.toList) :
    headerNameFromMetaKey key = some (String.ofList
      (asciiLower (key.toList.drop metaRespHeaderPrefix.toList.length))) := by
  obtain ⟨hopen, hrest⟩ := asciiLower_of_opens (by decide) h
  rw [headerNameFromMetaKey, if_neg (not_opens_of_opens hopen (by decide) (by decide)),
    if_pos hopen, hrest]

theorem headerNameFromMetaKey_of_cookiePrefix (h : metaRespCookiePrefix.toList <+: key.toList) :
    headerNameFromMetaKey key = some "set-cookie" := by
  have hopen := (asciiLower_of_opens (by decide) h).1
  rw [headerNameFromMetaKey, if_neg (not_opens_of_opens hopen (by decide) (by decide)),
    if_neg (not_opens_of_opens hopen (by decide) (by decide)), if_pos hopen]

/-- A header read from a response entry is recognised under its key, or is the content type under
its own. -/
theorem of_responseHeader (h : responseHeader e = some name) :
    headerNameFromMetaKey e.key = some name ∨ mirroredHeader e.key = some name := by
  unfold responseHeader at h
  unfold classifyResponseMeta at h
  by_cases hstatus : e.key = metaRespStatus
  · simp only [hstatus, if_true] at h
    generalize ((parseU16 e.value.toList).filter fun code ↦ 100 ≤ code ∧ code ≤ 999) = code at h
    cases code <;> cases h
  · by_cases hv : isFieldValue e.value.toList = true
    · simp only [hstatus, hv, if_true, if_false] at h
      by_cases hcookie : metaRespCookiePrefix.toList <+: e.key.toList
      · simp only [hcookie, if_true, Option.some.injEq] at h
        exact .inl (h ▸ headerNameFromMetaKey_of_cookiePrefix hcookie)
      · by_cases hheader : metaRespHeaderPrefix.toList <+: e.key.toList
        · have hname := headerNameFromMetaKey_of_respPrefix hheader
          simp only [hcookie, hheader, if_true, if_false] at h
          -- a name in another case is the same name in lower case
          have hcase : ∀ known : String, asciiLower known.toList = known.toList →
              eqIgnoreAsciiCase (e.key.toList.drop metaRespHeaderPrefix.toList.length)
                known.toList = true → headerNameFromMetaKey e.key = some known := by
            intro known hknown heq
            rw [hname, of_decide_eq_true heq, hknown, String.ofList_toList]
          split_ifs at h with h₁ h₂ h₃ h₄
          · exact .inl (Option.some.inj h ▸ hcase "content-type" (by decide) h₃)
          · exact .inl (Option.some.inj h ▸ hcase "set-cookie" (by decide) h₄)
          · change some (toAsciiLowercase (String.ofList _)) = some name at h
            exact .inl (hname.trans (h ▸ by rw [toAsciiLowercase, String.toList_ofList]))
        · simp only [hcookie, hheader, if_false] at h
          split_ifs at h with hct
          · refine .inr ?_
            rw [mirroredHeader, if_pos (.inl hct)]
            exact h
    · simp only [hstatus, hv, if_false, Bool.false_eq_true] at h
      split_ifs at h

theorem of_requestHeader (h : requestHeader e = some name) :
    headerNameFromMetaKey e.key = some name ∨ mirroredHeader e.key = some name := by
  rw [requestHeader] at h
  split_ifs at h with h₁ h₂
  · exact .inl (h ▸ headerNameFromMetaKey_of_httpPrefix h₁)
  · exact .inr h

/-! ## What the egress consists of -/

variable {caps : BlockCapabilities} {inbound guest : List MetaEntry} {egress : GuestEgress}

theorem unlistedHeader_writable :
    unlistedHeader caps.headers.writable caps key = some name ↔
      headerNameFromMetaKey key = some name ∧ Unwritable caps name :=
  unlistedHeader_eq_some_iff

def carriesUnwritable (caps : BlockCapabilities) (e : MetaEntry) : Bool :=
  (unlistedHeader caps.headers.writable caps e.key).isSome

theorem carriesUnwritable_iff :
    carriesUnwritable caps e = true ↔
      ∃ name, headerNameFromMetaKey e.key = some name ∧ Unwritable caps name := by
  rw [carriesUnwritable, Option.isSome_iff_exists]
  exact exists_congr fun name ↦ unlistedHeader_writable

theorem survives_iff :
    survives caps e = true ↔
      isProtectedMetaKey e.key = false ∧ carriesUnwritable caps e = false := by
  rw [survives, Bool.and_eq_true, Bool.not_eq_true', Option.isNone_iff_eq_none, carriesUnwritable,
    Option.isSome_eq_false_iff, Option.isNone_iff_eq_none]

theorem not_survives_of_carries (h : carriesUnwritable caps e = true) :
    survives caps e = false := by
  refine Bool.eq_false_iff.mpr fun hs ↦ ?_
  rw [(survives_iff.mp hs).2] at h
  cases h

theorem not_survives_of_protected (h : isProtectedMetaKey e.key = true) :
    survives caps e = false := by
  refine Bool.eq_false_iff.mpr fun hs ↦ ?_
  rw [(survives_iff.mp hs).1] at h
  cases h

def putBack (caps : BlockCapabilities) (inbound : List MetaEntry) : GuestEgress → List MetaEntry
  | .continue => inbound.filter (carriesUnwritable caps)
  | .respond | .error | .call => []

theorem guestEgressMeta_eq : guestEgressMeta caps inbound guest egress =
    guest.filter (survives caps) ++ (inbound.filter fun e ↦ isProtectedMetaKey e.key) ++
      putBack caps inbound egress := by
  unfold guestEgressMeta sanitizeGuestEgress prepareGuestInbound
  cases egress with
  | «continue» =>
    simp only [putBack, filter_filter]
    congr 1
    refine filter_congr fun e _ ↦ ?_
    -- a header the guest may not write is sensitive
    change (carriesUnwritable caps e && _) = _
    cases h : carriesUnwritable caps e with
    | false => rfl
    | true =>
      obtain ⟨name, hname, hs, -⟩ := carriesUnwritable_iff.mp h
      have : sensitiveHeaderName e.key caps = some name :=
        Option.filter_eq_some_iff.mpr ⟨hname, hs⟩
      rw [this]
      rfl
  | respond | error | call => rfl

theorem filter_guestEgressMeta (p : MetaEntry → Bool) :
    (guestEgressMeta caps inbound guest egress).filter p =
      (guest.filter (survives caps)).filter p ++
        (inbound.filter fun e ↦ isProtectedMetaKey e.key).filter p ++
        (putBack caps inbound egress).filter p := by
  rw [guestEgressMeta_eq, filter_append, filter_append]

theorem mem_putBack (h : e ∈ putBack caps inbound egress) :
    e ∈ inbound ∧ carriesUnwritable caps e = true := by
  cases egress with
  | «continue» => exact mem_filter.mp h
  | respond | error | call => cases h

theorem putBack_not_protected (h : e ∈ putBack caps inbound egress) :
    isProtectedMetaKey e.key = false := by
  obtain ⟨name, hname, -⟩ := carriesUnwritable_iff.mp (mem_putBack h).2
  exact not_protected_of_header hname

theorem filter_filter_eq_nil {l : List MetaEntry} {p q : MetaEntry → Bool}
    (h : ∀ e ∈ l, p e = true → q e = false) : (l.filter p).filter q = [] := by
  refine filter_eq_nil_iff.mpr fun e he ↦ ?_
  obtain ⟨hl, hp⟩ := mem_filter.mp he
  rw [h e hl hp]
  exact Bool.false_ne_true

theorem filter_filter_eq {l : List MetaEntry} {p q : MetaEntry → Bool}
    (h : ∀ e ∈ l, q e = true → p e = true) : (l.filter p).filter q = l.filter q := by
  rw [filter_filter]
  refine filter_congr fun e he ↦ ?_
  cases hq : q e with
  | false => rfl
  | true => rw [h e he hq, Bool.and_self]

theorem survives_of_mirroredHeader (h : mirroredHeader e.key = some name) :
    survives caps e = true ∧ carriesUnwritable caps e = false := by
  obtain ⟨hnone, hprotected⟩ := of_mirroredHeader h
  have hcarries : carriesUnwritable caps e = false := by
    refine Bool.eq_false_iff.mpr fun h' ↦ ?_
    obtain ⟨n, hn, -⟩ := carriesUnwritable_iff.mp h'
    rw [hnone] at hn
    cases hn
  exact ⟨survives_iff.mpr ⟨hprotected, hcarries⟩, hcarries⟩

theorem guestEgressMeta_identity :
    ((guestEgressMeta caps inbound guest egress).filter fun e ↦ isProtectedMetaKey e.key) =
      inbound.filter fun e ↦ isProtectedMetaKey e.key := by
  have hguest : ((guest.filter (survives caps)).filter fun e ↦ isProtectedMetaKey e.key) = [] :=
    filter_filter_eq_nil fun _ _ h ↦ (survives_iff.mp h).1
  have hback : ((putBack caps inbound egress).filter fun e ↦ isProtectedMetaKey e.key) = [] :=
    filter_eq_nil_iff.mpr fun e he ↦ by simp [putBack_not_protected he]
  rw [filter_guestEgressMeta, hguest, hback, filter_filter_eq fun _ _ h ↦ h, nil_append,
    append_nil]

theorem guestEgressMeta_restored (hname : Unwritable caps name) :
    ((guestEgressMeta caps inbound guest .continue).filter fun e ↦
        headerNameFromMetaKey e.key = some name) =
      inbound.filter fun e ↦ headerNameFromMetaKey e.key = some name := by
  have hcarries : ∀ e : MetaEntry, decide (headerNameFromMetaKey e.key = some name) = true →
      carriesUnwritable caps e = true :=
    fun e he ↦ carriesUnwritable_iff.mpr ⟨name, of_decide_eq_true he, hname⟩
  have hguest : ((guest.filter (survives caps)).filter fun e ↦
      decide (headerNameFromMetaKey e.key = some name)) = [] := by
    refine filter_filter_eq_nil fun e _ h ↦ Bool.eq_false_iff.mpr fun he ↦ ?_
    rw [not_survives_of_carries (hcarries e he)] at h
    cases h
  have hidentity : ((inbound.filter fun e ↦ isProtectedMetaKey e.key).filter fun e ↦
      decide (headerNameFromMetaKey e.key = some name)) = [] := by
    refine filter_filter_eq_nil fun e _ h ↦ decide_eq_false fun he ↦ ?_
    rw [not_protected_of_header he] at h
    cases h
  rw [filter_guestEgressMeta, hguest, hidentity, putBack, filter_filter_eq fun e _ ↦ hcarries e]
  rfl

theorem filter_guestEgressMeta_of_survives {p : MetaEntry → Bool}
    (hp : ∀ e, p e = true → survives caps e = true) :
    (guestEgressMeta caps inbound guest egress).filter p = guest.filter p := by
  have hnot : ∀ e, survives caps e = false → p e = false := fun e h ↦
    Bool.eq_false_iff.mpr fun he ↦ Bool.eq_false_iff.mp h (hp e he)
  have hidentity : (inbound.filter fun e ↦ isProtectedMetaKey e.key).filter p = [] :=
    filter_filter_eq_nil fun e _ h ↦ hnot e (not_survives_of_protected h)
  have hback : (putBack caps inbound egress).filter p = [] := by
    refine filter_eq_nil_iff.mpr fun e he ↦ Bool.eq_false_iff.mp (hnot e ?_)
    exact not_survives_of_carries (mem_putBack he).2
  rw [filter_guestEgressMeta, hidentity, hback, filter_filter_eq fun e _ h ↦ hp e h,
    append_nil, append_nil]

theorem guestEgressMeta_mirrored (name : String) :
    ((guestEgressMeta caps inbound guest egress).filter fun e ↦ mirroredHeader e.key = some name) =
      guest.filter fun e ↦ mirroredHeader e.key = some name :=
  filter_guestEgressMeta_of_survives fun _ he ↦
    (survives_of_mirroredHeader (of_decide_eq_true he)).1

theorem guestEgressMeta_others :
    ((guestEgressMeta caps inbound guest egress).filter fun e ↦ Unrestricted caps e) =
      guest.filter fun e ↦ Unrestricted caps e := by
  refine filter_guestEgressMeta_of_survives fun e he ↦ ?_
  obtain ⟨hprotected, hheader, -⟩ := of_decide_eq_true he
  refine survives_iff.mpr ⟨hprotected, Bool.eq_false_iff.mpr fun h ↦ ?_⟩
  obtain ⟨n, hn, hw⟩ := carriesUnwritable_iff.mp h
  exact hheader n hn hw

theorem guestEgressMeta_again :
    guestEgressMeta caps inbound (guestEgressMeta caps inbound guest egress) egress =
      guestEgressMeta caps inbound guest egress := by
  rw [@guestEgressMeta_eq caps inbound (guestEgressMeta caps inbound guest egress),
    filter_guestEgressMeta_of_survives fun _ h ↦ h, ← guestEgressMeta_eq]

/-- **The egress of a guest is contained exactly if the guest leaves the mirrors alone.** -/
theorem egressContained_iff (caps : BlockCapabilities) (inbound guest : List MetaEntry)
    (egress : GuestEgress) :
    EgressContained caps inbound guest egress ↔ MirrorsLeftAlone caps inbound guest egress := by
  constructor
  · intro h
    refine ⟨fun e he name hname hw ↦ ?_, fun hc name hw ↦ ?_⟩
    · have hnone := (of_mirroredHeader hname).1
      -- under a mirror nothing but the mirrored header is read
      have hread : ∀ n, responseHeader e = some n ∨ requestHeader e = some n → False := by
        intro n hn
        have hmirror : mirroredHeader e.key = some n := by
          rcases hn with hn | hn
          · exact (of_responseHeader hn).resolve_left fun h' ↦ by rw [hnone] at h'; cases h'
          · exact (of_requestHeader hn).resolve_left fun h' ↦ by rw [hnone] at h'; cases h'
        obtain rfl := Option.some.inj (hname.symm.trans hmirror)
        exact h.written e he (survives_of_mirroredHeader hname).1 name hn hw
      exact ⟨Option.eq_none_iff_forall_ne_some.mpr fun n hn ↦ hread n (.inl hn),
        Option.eq_none_iff_forall_ne_some.mpr fun n hn ↦ hread n (.inr hn)⟩
    · rw [← guestEgressMeta_mirrored name]
      exact h.mirrored hc name hw
  · intro h
    refine ⟨guestEgressMeta_identity, fun e he hs name hread hw ↦ ?_, fun hc name hw ↦ ?_,
      fun hc name hw ↦ ?_, guestEgressMeta_others, guestEgressMeta_again⟩
    · have hcarried : headerNameFromMetaKey e.key = some name ∨ mirroredHeader e.key = some name :=
        hread.elim of_responseHeader of_requestHeader
      rcases hcarried with hheader | hmirror
      · rw [not_survives_of_carries (carriesUnwritable_iff.mpr ⟨name, hheader, hw⟩)] at hs
        cases hs
      · obtain ⟨h₁, h₂⟩ := h.unread e he name hmirror hw
        rw [h₁, h₂] at hread
        exact hread.elim nofun nofun
    · exact hc ▸ guestEgressMeta_restored hw
    · rw [guestEgressMeta_mirrored name]
      exact h.handedBack hc name hw

/-- A guest that may not write the content type of the response writes it. -/
theorem not_egressContained :
    ¬∀ (caps : BlockCapabilities) (inbound guest : List MetaEntry) (egress : GuestEgress),
      EgressContained caps inbound guest egress := by
  intro h
  have hw := (h (maskingCaps ["content-type"]) [] [⟨metaRespContentType, "text/html"⟩]
    .respond).written ⟨metaRespContentType, "text/html"⟩ List.mem_cons_self (by decide)
    "content-type" (.inl (by decide))
  exact hw (by decide)

end WaferRun.Wasm
