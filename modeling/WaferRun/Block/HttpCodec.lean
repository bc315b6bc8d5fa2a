import Mathlib.Algebra.Group.Nat.Defs
import WaferRun.Lib.Text

/-!
# Response metadata

A response travels through a flow as a list of key/value entries. Which of them are response
headers, cookies, the status or the content type is decided entry by entry by
`classifyResponseMeta`, and an entry whose key says it belongs to the response but that cannot be
sent is refused there. Everything downstream, the merging of two responses and the transport, goes
through this one classification.

For an entry that is not refused the classification only depends on the key. The lemmas at the end
make this precise, since it is what lets entries be tracked by their keys.
-/

namespace WaferRun

open Text

/-- One attribute of a message. -/
structure MetaEntry where
  key : String
  value : String
deriving DecidableEq, Repr

def metaRespStatus : String := "resp.status"
def metaRespContentType : String := "resp.content_type"
def metaRespHeaderPrefix : String := "resp.header."
def metaRespCookiePrefix : String := "resp.set_cookie."
def metaRespStream : String := "resp.stream"
def metaRespContentLength : String := "resp.content_length"

inductive ResponseMetaPart
  | status (code : ℕ)
  | header (name value : String)
  | setCookie (directive : String)
  | contentType (value : String)
deriving DecidableEq, Repr

inductive InvalidResponseMetaKind
  | transportOwned
  | unsendable
deriving DecidableEq, Repr

/-- A refused entry. -/
structure InvalidResponseMeta where
  key : String
  reason : String
  kind : InvalidResponseMetaKind
deriving DecidableEq, Repr

def transportOwnedResponseHeaders : List String :=
  ["connection", "content-length", "keep-alive", "proxy-connection", "te", "trailer",
    "transfer-encoding", "upgrade"]

def bodyResponseHeaders : List String :=
  ["content-encoding", "content-disposition", "content-language", "content-location",
    "content-range", "accept-ranges", "etag", "last-modified", "location"]

def isListed (list : List String) (name : List Char) : Bool :=
  list.any fun n ↦ eqIgnoreAsciiCase n.toList name

/-- A character of a token, the grammar of a field name. -/
def isTchar (c : Char) : Bool := c.isAlphanum || c ∈ "!#$%&'*+-.^_`|~".toList

def isFieldName (name : List Char) : Bool := name ≠ [] && name.all isTchar

def isFieldChar (c : Char) : Bool := c = '\t' || (' ' ≤ c && c ≤ '~')

def isFieldValue (value : List Char) : Bool := value.all isFieldChar

theorem isFieldChar_of_isDigit {c : Char} (h : c.isDigit = true) : isFieldChar c = true := by
  simp only [Char.isDigit, Bool.and_eq_true, decide_eq_true_eq] at h
  simp only [isFieldChar, Bool.or_eq_true, Bool.and_eq_true, decide_eq_true_eq, Char.le_def]
  refine Or.inr ⟨?_, ?_⟩ <;> grind

/-- An unsigned decimal number below `2 ^ 16`, with an optional plus sign. -/
def parseU16 (s : List Char) : Option ℕ :=
  let digits := if s.head? = some '+' then s.tail else s
  if digits = [] ∨ ¬digits.all Char.isDigit then none
  else
    let n := digits.foldl (fun n c ↦ 10 * n + (c.toNat - '0'.toNat)) 0
    if n < 2 ^ 16 then some n else none

/-- Classify an entry as a part of the response: `none` if it is not about the response. -/
def classifyResponseMeta (e : MetaEntry) : Except InvalidResponseMeta (Option ResponseMetaPart) :=
  let invalid reason : InvalidResponseMeta := ⟨e.key, reason, .unsendable⟩
  let checked part :=
    if isFieldValue e.value.toList then .ok (some part)
    else .error (invalid "value holds a control or non-ASCII character")
  let k := e.key.toList
  if e.key = metaRespStatus then
    match (parseU16 e.value.toList).filter fun code ↦ 100 ≤ code ∧ code ≤ 999 with
    | some code => .ok (some (.status code))
    | none => .error (invalid "status is not an integer in 100..=999")
  else if metaRespCookiePrefix.toList <+: k then checked (.setCookie e.value)
  else if metaRespHeaderPrefix.toList <+: k then
    let name := k.drop metaRespHeaderPrefix.toList.length
    if ¬isFieldName name then .error (invalid "header name is not an RFC 9110 token")
    else if isListed transportOwnedResponseHeaders name then
      .error ⟨e.key, "header is owned by the transport", .transportOwned⟩
    else if eqIgnoreAsciiCase name "content-type".toList then checked (.contentType e.value)
    else if eqIgnoreAsciiCase name "set-cookie".toList then checked (.setCookie e.value)
    else checked (.header (String.ofList name) e.value)
  else if e.key = metaRespContentType then checked (.contentType e.value)
  else .ok none

/-! ## Cookie identity -/

structure CookieId where
  name : List Char
  path : List Char
  domain : List Char
deriving DecidableEq, Repr

def CookieId.readAttr (id : CookieId) (attr : List Char) : CookieId :=
  let (key, value) := (splitOnce ['='] attr).getD (attr, [])
  if eqIgnoreAsciiCase (trim key) "path".toList then { id with path := trim value }
  else if eqIgnoreAsciiCase (trim key) "domain".toList then
    { id with domain := asciiLower ((trim value).dropWhile (· = '.')) }
  else id

def cookieId (directive : String) : CookieId :=
  match directive.toList.splitOn ';' with
  | [] => ⟨[], [], []⟩
  | pair :: attrs =>
    attrs.foldl CookieId.readAttr ⟨trim ((pair.splitOn '=').headD []), [], []⟩

/-! ## The kind of an entry -/

/-- What an entry is, for the purpose of merging responses. -/
inductive Kind
  | cookie
  | header (name : List Char)
  | other
deriving DecidableEq, Repr

def kind (e : MetaEntry) : Kind :=
  match classifyResponseMeta e with
  | .ok (some (.setCookie _)) => .cookie
  | .ok (some (.header name _)) => .header (asciiLower name.toList)
  | .ok (some (.status _)) | .ok (some (.contentType _)) | .ok none | .error _ => .other

def Sendable (e : MetaEntry) : Prop :=
  ∀ invalid, classifyResponseMeta e = .error invalid → invalid.kind ≠ .unsendable

instance (e : MetaEntry) : Decidable (Sendable e) :=
  decidable_of_iff
    ((match classifyResponseMeta e with
      | .error invalid => decide (invalid.kind ≠ .unsendable)
      | .ok _ => true) = true) <| by
    unfold Sendable
    cases classifyResponseMeta e <;> simp

theorem sendable_of_key {e : MetaEntry} (hstatus : e.key ≠ metaRespStatus)
    (hct : e.key ≠ metaRespContentType) (hheader : ¬metaRespHeaderPrefix.toList <+: e.key.toList)
    (hcookie : ¬metaRespCookiePrefix.toList <+: e.key.toList) : Sendable e := by
  intro invalid hi
  unfold classifyResponseMeta at hi
  simp only [hstatus, hct, hheader, hcookie, if_false] at hi
  cases hi

def keyKind (key : String) : Kind := kind ⟨key, ""⟩

/-- **The kind of a sendable entry is the kind of its key**, and if that is a header or a cookie
the value is a field value. -/
theorem kind_eq_keyKind {e : MetaEntry} (h : Sendable e) :
    kind e = keyKind e.key ∧ (keyKind e.key ≠ .other → isFieldValue e.value.toList = true) := by
  have hempty : isFieldValue "".toList = true := by decide
  have hstatus : (parseU16 "".toList).filter (fun code ↦ 100 ≤ code ∧ code ≤ 999) = none := by decide
  unfold Sendable at h
  unfold keyKind kind
  unfold classifyResponseMeta at h ⊢
  by_cases h1 : e.key = metaRespStatus
  · simp only [h1, if_true, hstatus]
    refine ⟨?_, fun hne ↦ absurd rfl hne⟩
    cases (parseU16 e.value.toList).filter fun code ↦ 100 ≤ code ∧ code ≤ 999 <;> rfl
  · by_cases hv : isFieldValue e.value.toList = true
    · simp only [h1, hv, hempty, if_true, if_false]
      refine ⟨?_, fun _ ↦ trivial⟩
      split_ifs <;> rfl
    · simp only [h1, hv, hempty, if_false, if_true, Bool.false_eq_true] at h ⊢
      -- an entry with this value is refused under every key that would use the value
      split_ifs at h ⊢ <;> first | exact absurd rfl (h _ rfl) | exact ⟨rfl, fun hne ↦ absurd rfl hne⟩

theorem sendable_of_keyKind {k v : String} (hk : keyKind k ≠ .other)
    (hv : isFieldValue v.toList = true) : Sendable ⟨k, v⟩ := by
  intro invalid h
  unfold keyKind kind at hk
  unfold classifyResponseMeta at h hk
  have hempty : isFieldValue "".toList = true := by decide
  have hstatus : (parseU16 "".toList).filter (fun code ↦ 100 ≤ code ∧ code ≤ 999) = none := by decide
  by_cases h1 : k = metaRespStatus
  · simp only [h1, if_true, hstatus] at hk
    exact absurd rfl hk
  · simp only [h1, hv, hempty, if_true, if_false] at h hk
    split_ifs at h hk
    · exact absurd rfl hk
    · exact absurd rfl hk

theorem keyKind_cookiePrefix (s : String) : keyKind (metaRespCookiePrefix ++ s) = .cookie := by
  have hk : metaRespCookiePrefix.toList <+: (metaRespCookiePrefix ++ s).toList := by
    rw [String.toList_append]
    exact List.prefix_append _ _
  have h1 : metaRespCookiePrefix ++ s ≠ metaRespStatus := by
    intro h
    rw [h] at hk
    revert hk
    decide
  unfold keyKind kind classifyResponseMeta
  simp only [h1, hk, if_true, if_false, show isFieldValue "".toList = true by decide]

end WaferRun
