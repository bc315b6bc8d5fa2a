import WaferRun.Block.Capabilities
import WaferRun.Block.HttpMessage

/-!
# Metadata on its way into a guest

A guest is handed the metadata of the inbound message without the sensitive headers it may not read
(`prepareGuestInbound`). A header is sensitive by default or because the policy masks it, and it is
recognised by its key: a request header, a response header or a cookie.

The message of a request carries the content type and the host under further keys, which are not
recognised. A header that is withheld is therefore invisible to the guest unless it is one of these
two (`guestRequestMeta_blind_iff`): an operator who masks one of them withholds one of the entries
that carry it and hands over the others.
-/

open List

namespace WaferRun.Wasm

open Text

/-! ## Headers under their keys -/

/-- The headers a guest may neither read nor write unless its policy names them. -/
def defaultSensitiveHeaders : List String :=
  ["authorization", "proxy-authorization", "cookie", "set-cookie", "location", "refresh",
    "clear-site-data", "access-control-allow-origin", "access-control-allow-credentials",
    "access-control-allow-methods", "access-control-allow-headers",
    "access-control-expose-headers", "access-control-max-age", "strict-transport-security",
    "x-frame-options", "content-security-policy", "content-security-policy-report-only",
    "x-content-type-options", "referrer-policy", "permissions-policy",
    "cross-origin-opener-policy", "cross-origin-embedder-policy"]

def isSensitiveHeader (name : String) (masked : List String) : Bool :=
  name ∈ defaultSensitiveHeaders || isListedHeader masked name

def headerNameFromMetaKey (key : String) : Option String :=
  let lower := asciiLower key.toList
  if metaHttpHeaderPrefix.toList <+: lower then
    some (String.ofList (lower.drop metaHttpHeaderPrefix.toList.length))
  else if metaRespHeaderPrefix.toList <+: lower then
    some (String.ofList (lower.drop metaRespHeaderPrefix.toList.length))
  else if metaRespCookiePrefix.toList <+: lower then some "set-cookie"
  else none

def sensitiveHeaderName (key : String) (caps : BlockCapabilities) : Option String :=
  (headerNameFromMetaKey key).filter fun name ↦ isSensitiveHeader name caps.headers.masked

def unlistedHeader (listed : List String) (caps : BlockCapabilities) (key : String) :
    Option String :=
  (sensitiveHeaderName key caps).filter fun name ↦ !isListedHeader listed name

/-- Whether a key belongs to the identity, which the host owns. -/
def isProtectedMetaKey (key : String) : Bool :=
  asciiLower (key.toList.take 5) = "auth.".toList

structure HostOwnedMeta where
  identity : List MetaEntry
  sensitiveHeaders : List MetaEntry
deriving DecidableEq, Repr

structure GuestInbound where
  entries : List MetaEntry
  withheld : List String
  hostOwned : HostOwnedMeta
deriving DecidableEq, Repr

def prepareGuestInbound (entries : List MetaEntry) (caps : BlockCapabilities) : GuestInbound where
  entries := entries.filter fun e ↦ (unlistedHeader caps.headers.readable caps e.key).isNone
  withheld := (entries.filterMap fun e ↦ unlistedHeader caps.headers.readable caps e.key).foldl
    pushDistinct []
  hostOwned :=
    { identity := entries.filter fun e ↦ isProtectedMetaKey e.key
      sensitiveHeaders := entries.filter fun e ↦ (sensitiveHeaderName e.key caps).isSome }

theorem unlistedHeader_eq_some_iff {listed : List String} {caps : BlockCapabilities}
    {key name : String} :
    unlistedHeader listed caps key = some name ↔
      headerNameFromMetaKey key = some name ∧
        isSensitiveHeader name caps.headers.masked = true ∧ isListedHeader listed name = false := by
  rw [unlistedHeader, sensitiveHeaderName, Option.filter_eq_some_iff, Option.filter_eq_some_iff,
    Bool.not_eq_true', and_assoc]

theorem asciiLower_toList_append (p : String) (s : String) :
    asciiLower (p ++ s).toList = asciiLower p.toList ++ asciiLower s.toList := by
  rw [String.toList_append, asciiLower, asciiLower, asciiLower, map_append]

theorem headerNameFromMetaKey_httpHeader (name : String) :
    headerNameFromMetaKey (metaHttpHeaderPrefix ++ name) = some (toAsciiLowercase name) := by
  have hp : asciiLower metaHttpHeaderPrefix.toList = metaHttpHeaderPrefix.toList := by decide
  rw [headerNameFromMetaKey, asciiLower_toList_append, hp, if_pos (prefix_append _ _),
    drop_left]
  rfl

/-! ## What a guest learns of a withheld header -/

structure AgreeExceptHeader (U : CaseTables) (name : String) (r₁ r₂ : RequestHead) : Prop where
  method : r₁.method = r₂.method
  path : r₁.path = r₂.path
  rawQuery : r₁.rawQuery = r₂.rawQuery
  remoteAddr : r₁.remoteAddr = r₂.remoteAddr
  headers :
    (r₁.headers.filter fun line ↦
      decide (toAsciiLowercase (toLowercase U line.1) ≠ toAsciiLowercase name)) =
    r₂.headers.filter fun line ↦
      decide (toAsciiLowercase (toLowercase U line.1) ≠ toAsciiLowercase name)

/-- The headers whose value a request message carries under further keys. -/
def mirroredHeaders : List String := ["content-type", "host"]

def guestRequestMeta (U : CaseTables) (parseQuery : String → List (String × String))
    (caps : BlockCapabilities) (r : RequestHead) : List MetaEntry :=
  (prepareGuestInbound (buildHttpMessage U parseQuery r).entries caps).entries

variable (U : CaseTables) (parseQuery : String → List (String × String))

theorem guestRequestMeta_eq (caps : BlockCapabilities) (r : RequestHead) :
    guestRequestMeta U parseQuery caps r =
      setByKeys [] ((requestEntries U parseQuery r).filter fun e ↦
        (unlistedHeader caps.headers.readable caps e.key).isNone) :=
  filter_setByKeys (fun key ↦ (unlistedHeader caps.headers.readable caps key).isNone) []
    (requestEntries U parseQuery r)

variable {U parseQuery}

/-- The value of a header is joined from field lines on which two requests agree, unless it is the
header in which they differ. -/
theorem AgreeExceptHeader.joinedValue_eq {name : String} {r₁ r₂ : RequestHead}
    (h : AgreeExceptHeader U name r₁ r₂) {wanted : String}
    (hw : toAsciiLowercase wanted ≠ toAsciiLowercase name) :
    joinedValue (joinHeaders U r₁.headers) wanted =
      joinedValue (joinHeaders U r₂.headers) wanted := by
  let q : String → Bool := fun n ↦ decide (toAsciiLowercase n ≠ toAsciiLowercase name)
  have hq : q wanted = true := decide_eq_true hw
  rw [← joinedValue_filter q hq, ← joinedValue_filter q hq (joinHeaders U r₂.headers),
    filter_joinHeaders, filter_joinHeaders]
  exact congrArg (fun lines ↦ joinedValue (joinHeaders U lines) wanted) h.headers

/-- What two requests leave of their headers is the same, if nothing of the header in which they
differ is left. -/
theorem AgreeExceptHeader.filter_joinHeaders_eq {name : String} {r₁ r₂ : RequestHead}
    (h : AgreeExceptHeader U name r₁ r₂) {q : String → Bool}
    (hq : ∀ n, q n = true → toAsciiLowercase n ≠ toAsciiLowercase name) :
    (joinHeaders U r₁.headers).filter (fun header ↦ q header.1) =
      (joinHeaders U r₂.headers).filter fun header ↦ q header.1 := by
  have hlines : ∀ lines : List (String × String),
      (lines.filter fun line ↦ q (toLowercase U line.1)) =
        (lines.filter fun line ↦
          decide (toAsciiLowercase (toLowercase U line.1) ≠ toAsciiLowercase name)).filter
            fun line ↦ q (toLowercase U line.1) := by
    intro lines
    rw [filter_filter]
    refine filter_congr fun line _ ↦ ?_
    cases hl : q (toLowercase U line.1) with
    | false => rfl
    | true => rw [decide_eq_true (hq _ hl), Bool.and_self]
  rw [filter_joinHeaders, filter_joinHeaders, hlines r₁.headers, h.headers, ← hlines]

theorem guestRequestMeta_congr {caps : BlockCapabilities} {name : String}
    (hs : isSensitiveHeader (toAsciiLowercase name) caps.headers.masked = true)
    (hr : isListedHeader caps.headers.readable (toAsciiLowercase name) = false)
    (hm : toAsciiLowercase name ∉ mirroredHeaders) {r₁ r₂ : RequestHead}
    (h : AgreeExceptHeader U name r₁ r₂) :
    guestRequestMeta U parseQuery caps r₁ = guestRequestMeta U parseQuery caps r₂ := by
  have hct : toAsciiLowercase "content-type" ≠ toAsciiLowercase name :=
    fun heq ↦ hm (heq ▸ by decide)
  have hhost : toAsciiLowercase "host" ≠ toAsciiLowercase name :=
    fun heq ↦ hm (heq ▸ by decide)
  -- a request header the guest sees is not the withheld one
  have hkept : ∀ n : String,
      (unlistedHeader caps.headers.readable caps (metaHttpHeaderPrefix ++ n)).isNone = true →
        toAsciiLowercase n ≠ toAsciiLowercase name := by
    intro n hn heq
    rw [unlistedHeader_eq_some_iff.mpr
      ⟨headerNameFromMetaKey_httpHeader n, heq ▸ hs, heq ▸ hr⟩] at hn
    cases hn
  have hheaders := h.filter_joinHeaders_eq hkept
  rw [guestRequestMeta_eq, guestRequestMeta_eq]
  congr 1
  simp only [requestEntries, filter_append, filter_map, h.method, h.path, h.rawQuery,
    h.remoteAddr, h.joinedValue_eq hct, h.joinedValue_eq hhost]
  congr 2
  exact congrArg _ hheaders

theorem toLowercase_eq_self {s : String} (h : ∀ c ∈ s.toList, c.val < 128 ∧ c.toLower = c) :
    toLowercase U s = s := by
  rw [toLowercase, U.lower_eq_self h, String.ofList_toList]

def singleLine (name value : String) : RequestHead := ⟨"GET", "/", "", "", [(name, value)]⟩

theorem agreeExceptHeader_singleLine (name value₁ value₂ : String)
    (hn : ∀ c ∈ name.toList, c.val < 128 ∧ c.toLower = c) :
    AgreeExceptHeader U name (singleLine name value₁) (singleLine name value₂) := by
  refine ⟨rfl, rfl, rfl, rfl, ?_⟩
  simp [singleLine, toLowercase_eq_self hn]

theorem filter_guestRequestMeta {key : String} (hkey : headerNameFromMetaKey key = none)
    (caps : BlockCapabilities) (r : RequestHead) :
    (guestRequestMeta U parseQuery caps r).filter (fun e ↦ e.key = key) =
      ((requestEntries U parseQuery r).filter fun e ↦ e.key = key).getLast?.toList := by
  have hseen : (unlistedHeader caps.headers.readable caps key).isNone = true := by
    rw [unlistedHeader, sensitiveHeaderName, hkey]
    rfl
  have hfilter : (((requestEntries U parseQuery r).filter fun e ↦
      (unlistedHeader caps.headers.readable caps e.key).isNone).filter fun e ↦ e.key = key) =
      (requestEntries U parseQuery r).filter fun e ↦ e.key = key := by
    rw [filter_filter]
    refine filter_congr fun e _ ↦ ?_
    by_cases he : e.key = key
    · simp [he, hseen]
    · simp [he]
  rw [guestRequestMeta_eq, filter_key_setByKeys, hfilter]
  cases ((requestEntries U parseQuery r).filter fun e ↦ e.key = key).getLast? <;> rfl

theorem mirror_guestRequestMeta {name key : String}
    (h : (name, key) ∈ [("content-type", metaHttpContentType), ("host", metaHttpHost)])
    (caps : BlockCapabilities) (value : String) :
    (guestRequestMeta U parseQuery caps (singleLine name value)).filter (fun e ↦ e.key = key) =
      [⟨key, value⟩] := by
  have hjoin : ∀ n : String, toLowercase U n = n → joinHeaders U [(n, value)] = [(n, value)] := by
    intro n hn
    rw [joinHeaders, foldl_cons, foldl_nil, hn, addFieldLine]
  have hcontentType := hjoin "content-type" (toLowercase_eq_self (by decide))
  have hhost := hjoin "host" (toLowercase_eq_self (by decide))
  -- no other entry of the request is set under this key
  rcases mem_pair.mp h with h | h <;> obtain ⟨rfl, rfl⟩ := Prod.mk.inj h <;>
    rw [filter_guestRequestMeta (by decide)] <;>
    simp [requestEntries, singleLine, hcontentType, hhost, joinedValue, metaHttpMethod,
      metaHttpPath, metaHttpRawQuery, metaHttpRemoteAddr, metaHttpContentType, metaHttpHost,
      metaReqAction, metaReqResource, metaReqClientIp, metaReqContentType, metaHttpHeaderPrefix]

/-- **A withheld header is invisible to the guest exactly if it is not mirrored.** Whatever else a
request holds, a guest that may not read a sensitive header is handed the same entries for every
value of it, unless the header is the content type or the host. -/
theorem guestRequestMeta_blind_iff (U : CaseTables)
    (parseQuery : String → List (String × String)) (caps : BlockCapabilities) (name : String)
    (hs : isSensitiveHeader (toAsciiLowercase name) caps.headers.masked = true)
    (hr : isListedHeader caps.headers.readable (toAsciiLowercase name) = false) :
    (∀ r₁ r₂ : RequestHead, AgreeExceptHeader U name r₁ r₂ →
      guestRequestMeta U parseQuery caps r₁ = guestRequestMeta U parseQuery caps r₂) ↔
      toAsciiLowercase name ∉ mirroredHeaders := by
  refine ⟨fun h hm ↦ ?_, fun hm r₁ r₂ ↦ guestRequestMeta_congr hs hr hm⟩
  have hidem : toAsciiLowercase (toAsciiLowercase name) = toAsciiLowercase name := by
    rcases mem_pair.mp hm with h | h <;> rw [h] <;> decide
  obtain ⟨key, hkey⟩ : ∃ key, (toAsciiLowercase name, key) ∈
      [("content-type", metaHttpContentType), ("host", metaHttpHost)] := by
    rcases mem_pair.mp hm with h | h <;> rw [h]
    · exact ⟨metaHttpContentType, mem_cons_self⟩
    · exact ⟨metaHttpHost, mem_cons_of_mem _ mem_cons_self⟩
  have hlower : ∀ c ∈ (toAsciiLowercase name).toList, c.val < 128 ∧ c.toLower = c := by
    rcases mem_pair.mp hm with h | h <;> rw [h] <;> decide
  -- two values of the header, each of which the guest reads under the other key
  have hagree : AgreeExceptHeader U name (singleLine (toAsciiLowercase name) "a")
      (singleLine (toAsciiLowercase name) "b") := by
    have := agreeExceptHeader_singleLine (U := U) (toAsciiLowercase name) "a" "b" hlower
    refine ⟨rfl, rfl, rfl, rfl, ?_⟩
    have hheaders := this.headers
    rwa [hidem] at hheaders
  have heq := congrArg (List.filter fun e ↦ decide (e.key = key)) (h _ _ hagree)
  rw [mirror_guestRequestMeta hkey, mirror_guestRequestMeta hkey] at heq
  exact absurd heq (by simp)

def maskingCaps (masked : List String) : BlockCapabilities :=
  { BlockCapabilities.none with headers := ⟨[], [], masked⟩ }

/-- An application's token, masked by the operator, is invisible. -/
theorem guestRequestMeta_blind_internalToken :
    (∀ r₁ r₂ : RequestHead, AgreeExceptHeader .ascii "X-Internal-Token" r₁ r₂ →
      guestRequestMeta .ascii (fun _ ↦ []) (maskingCaps ["x-internal-token"]) r₁ =
        guestRequestMeta .ascii (fun _ ↦ []) (maskingCaps ["x-internal-token"]) r₂) ↔
      toAsciiLowercase "X-Internal-Token" ∉ mirroredHeaders :=
  guestRequestMeta_blind_iff .ascii (fun _ ↦ []) (maskingCaps ["x-internal-token"])
    "X-Internal-Token" (by decide) (by decide)

/-- A masked host is not: the guest tells two requests apart that differ in it only. -/
theorem guestRequestMeta_not_blind :
    ¬∀ (caps : BlockCapabilities) (name : String) (r₁ r₂ : RequestHead),
      isSensitiveHeader (toAsciiLowercase name) caps.headers.masked = true →
        isListedHeader caps.headers.readable (toAsciiLowercase name) = false →
          AgreeExceptHeader .ascii name r₁ r₂ →
            guestRequestMeta .ascii (fun _ ↦ []) caps r₁ =
              guestRequestMeta .ascii (fun _ ↦ []) caps r₂ := by
  intro h
  have := h (maskingCaps ["host"]) "host" (singleLine "host" "a.example")
    (singleLine "host" "b.example") (by decide) (by decide)
    (agreeExceptHeader_singleLine "host" "a.example" "b.example" (by decide))
  exact absurd this (by decide)

end WaferRun.Wasm
