import WaferRun.Crypto.CanonicalJson
import WaferRun.Flow.ExprLiteral
import WaferRun.Lib.Base64
import WaferRun.Lib.Fallible

/-!
# Signed tokens

A token has three segments: a header, the claims as canonical JSON, and a signature over the two.
Signing stamps the time of signing and of expiry into the claims. Verifying takes the segments
apart again.

A token that was signed is verified to its stamped claims until it expires, if the claims are not
nested deeper than the reader of JSON goes; a token of claims that are is signed and then refused.
Two sets of claims have the same payload if and only if they are the same, and what is accepted has
been signed (`jwt_agree`).

The code for message authentication, base64url and the reading and writing of JSON are parameters
with the laws that are relied on (`JwtLaws`). Times are in nanoseconds, within the range of a
calendar.
-/

open List

namespace WaferRun

open Fallible SortedKeys

inductive CryptoError
  | signError (message : String)
  | verifyError (message : String)
deriving DecidableEq

/-- Which tokens without an expiry are accepted. -/
inductive JwtExpPolicy
  | required
  | allowMissing
deriving DecidableEq, Repr

/-- The header `{"alg":"HS256","typ":"JWT"}`. -/
def jwtHeaderB64 : List Char := "eyJhbGciOiJIUzI1NiIsInR5cCI6IkpXVCJ9".toList

def asBytes (s : List Char) : Bytes := (String.ofList s).toUTF8.data.toList

/-! ## Claims -/

structure Claims where
  entries : List (String × Json)
  ascending : Ascending entries

namespace Claims

def get (c : Claims) (key : String) : Option Json := c.entries.lookup key

def insert (c : Claims) (key : String) (v : Json) : Claims where
  entries := c.entries.filter (·.1 < key) ++ (key, v) :: c.entries.filter (key < ·.1)
  ascending := by
    refine pairwise_append.mpr ⟨c.ascending.filter _, pairwise_cons.mpr ⟨?_,
      c.ascending.filter _⟩, ?_⟩
    · intro e he
      exact of_decide_eq_true (mem_filter.mp he).2
    · intro d hd e he
      have hlt : d.1 < key := of_decide_eq_true (mem_filter.mp hd).2
      rcases mem_cons.mp he with rfl | he
      · exact hlt
      · exact hlt.trans (of_decide_eq_true (mem_filter.mp he).2)

def canonical (c : Claims) : Claims where
  entries := c.entries.map fun e ↦ (e.1, e.2.sortAllObjects)
  ascending := by
    rw [Ascending, pairwise_map]
    exact c.ascending

def toValue (c : Claims) : Json := .object c.entries

def Plain (c : Claims) : Prop := c.toValue.Plain

def Same (c d : Claims) : Prop := c.toValue.Same d.toValue

end Claims

/-! ## The program -/

structure JwtLibrary where
  hmacSha256 : Bytes → Bytes → Bytes
  b64urlEncode : Bytes → List Char
  b64urlDecode : List Char → Except String Bytes
  toJson : Claims → Except String (List Char)
  claimsFromSlice : Bytes → Except String Claims
  valueFromSlice : Bytes → Except String Json
  rangeError : String

/-- The times there are, and the longest duration. -/
structure Calendar where
  maxDelta : ℕ
  first : ℤ
  last : ℤ
  first_ge : -(2 ^ 63 * 10 ^ 9) ≤ first
  last_lt : last < 2 ^ 63 * 10 ^ 9

abbrev Calendar.Instant (cal : Calendar) := { n : ℤ // cal.first ≤ n ∧ n ≤ cal.last }

def timestamp (n : ℤ) : ℤ := n / 10 ^ 9

def Json.ofTimestamp (n : ℤ) : Json := .number (.ofI64 n)

/-- The integer a value is, if it has 64 bits. -/
def Json.asI64 : Json → Option ℤ
  | .number (.posInt n) => if n < 2 ^ 63 then some n else none
  | .number (.negInt n) => some (-n)
  | _ => none

section

variable (L : JwtLibrary) (cal : Calendar)

def canonicalJson (claims : Claims) : Except CryptoError (List Char) :=
  match L.toJson claims.canonical with
  | .ok json => .ok json
  | .error e => .error (.signError e)

def jwtPayload (claims : Claims) : Except CryptoError (List Char) :=
  (canonicalJson L claims).map fun json ↦ L.b64urlEncode (asBytes json)

def jwtEncodeUnstamped (claims : Claims) (secret : Bytes) : Except CryptoError (List Char) :=
  (jwtPayload L claims).map fun payload ↦
    let signingInput := jwtHeaderB64 ++ '.' :: payload
    signingInput ++ '.' :: L.b64urlEncode (L.hmacSha256 secret (asBytes signingInput))

def Claims.stamp (claims : Claims) (now : ℤ) (expiry : ℕ) : Claims :=
  (claims.insert "iat" (.ofTimestamp (timestamp now))).insert "exp"
    (.ofTimestamp (timestamp (now + expiry)))

def jwtSign (now : cal.Instant) (claims : Claims) (expiry : ℕ) (secret : Bytes) :
    Except CryptoError (List Char) :=
  if cal.maxDelta < expiry then .error (.signError ("expiry out of range: " ++ L.rangeError))
  else if cal.last < now.1 + expiry then
    .error (.signError "expiry out of range: past the last date")
  else jwtEncodeUnstamped L (claims.stamp now.1 expiry) secret

def b64urlDecode (s : List Char) : Except CryptoError Bytes :=
  match L.b64urlDecode s with
  | .ok bytes => .ok bytes
  | .error e => .error (.verifyError ("base64 decode: " ++ e))

def checkOtherHeader (header : List Char) : Except CryptoError Unit := do
  let bytes ← b64urlDecode L header
  match L.valueFromSlice bytes with
  | .error e => .error (.verifyError ("header decode: " ++ e))
  | .ok value =>
    match value.get "alg" with
    | none => .error (.verifyError "missing `alg` field in JWT header")
    | some (.string alg) =>
      if alg = "HS256" then .ok ()
      else .error (.verifyError ("unsupported algorithm: " ++ alg))
    | some _ => .error (.verifyError "`alg` field in JWT header is not a string")

def checkHeader (header : List Char) : Except CryptoError Unit :=
  if header = jwtHeaderB64 then .ok () else checkOtherHeader L header

def checkExpiry (now : ℤ) (claims : Claims) (policy : JwtExpPolicy) : Except CryptoError Claims :=
  match (claims.get "exp").bind Json.asI64, policy with
  | some exp, _ =>
    if timestamp now > exp then .error (.verifyError "token expired") else .ok claims
  | none, .allowMissing => .ok claims
  | none, .required => .error (.verifyError "token missing exp claim")

def jwtVerify (now : ℤ) (token : List Char) (secret : Bytes) (policy : JwtExpPolicy) :
    Except CryptoError Claims :=
  match token.splitOn '.' with
  | [header, payload, sig] => do
    checkHeader L header
    let sigBytes ← b64urlDecode L sig
    if L.hmacSha256 secret (asBytes (header ++ '.' :: payload)) = sigBytes then
      let bytes ← b64urlDecode L payload
      match L.claimsFromSlice bytes with
      | .error e => .error (.verifyError ("payload decode: " ++ e))
      | .ok claims => checkExpiry now claims policy
    else .error (.verifyError "signature mismatch")
  | _ => .error (.verifyError "invalid JWT structure")

end

/-- The nesting at which `serde_json` gives up reading. -/
def recursionLimit : ℕ := 128

structure JwtLaws (L : JwtLibrary) : Prop where
  decode_encode : ∀ bytes, L.b64urlDecode (L.b64urlEncode bytes) = .ok bytes
  no_dot : ∀ bytes, '.' ∉ L.b64urlEncode bytes
  header : ∃ bytes v, L.b64urlDecode jwtHeaderB64 = .ok bytes ∧ L.valueFromSlice bytes = .ok v ∧
    v.get "alg" = some (.string "HS256")
  /-- Claims without floats and with sorted keys are read back from their JSON, -/
  read_write : ∀ (c : Claims) json, c.Plain → c.toValue.Sorted → L.toJson c = .ok json →
    c.toValue.depth < recursionLimit → L.claimsFromSlice (asBytes json) = .ok c
  /-- unless they are nested too deep. -/
  recursion_limit : ∀ (c : Claims) json, L.toJson c = .ok json →
    recursionLimit ≤ c.toValue.depth → ∃ e, L.claimsFromSlice (asBytes json) = .error e
  /-- A JSON text is the text of one value. -/
  write_inj : ∀ (c d : Claims) json, c.Plain → c.toValue.Sorted → d.Plain → d.toValue.Sorted →
    L.toJson c = .ok json → L.toJson d = .ok json → c = d

/-! ## Claims that are stamped -/

namespace Claims

theorem get_insert_self (c : Claims) (key : String) (v : Json) :
    (c.insert key v).get key = some v := by
  apply (mem_iff_lookup (c.insert key v).ascending.distinctKeys).mp
  exact mem_append_right _ mem_cons_self

theorem mem_entries_insert {c : Claims} {key : String} {v : Json} {e : String × Json}
    (h : e ∈ (c.insert key v).entries) : e = (key, v) ∨ e ∈ c.entries := by
  rcases mem_append.mp h with h | h
  · exact .inr (mem_filter.mp h).1
  · exact (mem_cons.mp h).imp_right fun h ↦ (mem_filter.mp h).1

theorem Plain.insert {c : Claims} (h : c.Plain) (key : String) {v : Json} (hv : v.Plain) :
    (c.insert key v).Plain := by
  cases h with
  | object _ hfields =>
    refine .object (c.insert key v).ascending.distinctKeys fun e he ↦ ?_
    rcases mem_entries_insert he with rfl | he
    · exact hv
    · exact hfields e he

theorem toValue_canonical (c : Claims) : c.canonical.toValue = c.toValue.sortAllObjects := by
  rw [toValue, toValue, Json.sortAllObjects_object]
  exact congrArg Json.object c.canonical.ascending.sortKeys_eq.symm

theorem Plain.canonical {c : Claims} (h : c.Plain) :
    c.canonical.Plain ∧ c.canonical.toValue.Sorted := by
  rw [Plain, toValue_canonical]
  exact Json.Plain.sortAllObjects h

theorem toValue_inj {c d : Claims} : c.toValue = d.toValue ↔ c = d := by
  constructor
  · intro h
    rcases c with ⟨entries, _⟩
    rcases d with ⟨entries', _⟩
    obtain rfl : entries = entries' := Json.object.inj h
    rfl
  · rintro rfl
    rfl

theorem canonical_eq_iff {c d : Claims} (hc : c.Plain) (hd : d.Plain) :
    c.canonical = d.canonical ↔ c.Same d := by
  rw [← toValue_inj, toValue_canonical, toValue_canonical]
  exact Json.sortAllObjects_eq_iff hc hd

theorem same_canonical {c : Claims} (hc : c.Plain) : c.canonical.Same c := by
  rw [← canonical_eq_iff hc.canonical.1 hc, ← toValue_inj, toValue_canonical,
    hc.canonical.2.sortAllObjects_eq]

theorem get_canonical (c : Claims) (key : String) :
    c.canonical.get key = (c.get key).map Json.sortAllObjects :=
  lookup_map _ _ _

end Claims

section

variable {cal : Calendar}

theorem Calendar.timestamp_mem (n : cal.Instant) :
    -2 ^ 63 ≤ timestamp n.1 ∧ timestamp n.1 < 2 ^ 63 := by
  obtain ⟨n, hfirst, hlast⟩ := n
  have hge := cal.first_ge
  have hlt := cal.last_lt
  unfold timestamp
  dsimp only
  omega

theorem Json.plain_ofTimestamp {n : ℤ} (h : -2 ^ 63 ≤ n ∧ n < 2 ^ 63) : (ofTimestamp n).Plain := by
  unfold ofTimestamp JsonNumber.ofI64
  split
  · exact .negInt (by omega) (by omega)
  · exact .posInt (by omega)

theorem Json.asI64_ofTimestamp {n : ℤ} (h : -2 ^ 63 ≤ n ∧ n < 2 ^ 63) :
    (ofTimestamp n).asI64 = some n := by
  unfold ofTimestamp JsonNumber.ofI64
  split
  · rw [asI64]
    exact congrArg some (by omega)
  · rw [asI64, if_pos (by omega)]
    exact congrArg some (by omega)

theorem Claims.Plain.stamp {c : Claims} (h : c.Plain) {now : ℤ} {expiry : ℕ}
    (hnow : -2 ^ 63 ≤ timestamp now ∧ timestamp now < 2 ^ 63)
    (hexp : -2 ^ 63 ≤ timestamp (now + expiry) ∧ timestamp (now + expiry) < 2 ^ 63) :
    (c.stamp now expiry).Plain :=
  (h.insert "iat" (Json.plain_ofTimestamp hnow)).insert "exp" (Json.plain_ofTimestamp hexp)

end

/-! ## Tokens -/

section

variable {L : JwtLibrary} {cal : Calendar}

def Hs256Header (L : JwtLibrary) (header : List Char) : Prop :=
  ∃ bytes v, L.b64urlDecode header = .ok bytes ∧ L.valueFromSlice bytes = .ok v ∧
    v.get "alg" = some (.string "HS256")

theorem b64urlDecode_eq_ok {s : List Char} {bytes : Bytes}
    (h : b64urlDecode L s = .ok bytes) : L.b64urlDecode s = .ok bytes := by
  unfold b64urlDecode at h
  split at h
  · rename_i heq
    exact heq.trans (congrArg _ (Except.ok.inj h))
  · cases h

theorem checkHeader_eq_ok (hL : JwtLaws L) {header : List Char}
    (h : checkHeader L header = .ok ()) : Hs256Header L header := by
  unfold checkHeader at h
  split at h
  · rename_i heq
    rw [heq]
    exact hL.header
  · obtain ⟨bytes, hbytes, h⟩ := bind_eq_ok.mp h
    split at h
    · cases h
    · rename_i value hvalue
      split at h
      · cases h
      · rename_i alg halg
        split at h
        · rename_i heq
          exact ⟨bytes, value, b64urlDecode_eq_ok hbytes, hvalue, heq ▸ halg⟩
        · cases h
      · cases h

/-- **Accepted tokens.** A token that is accepted has a header that names the algorithm and the
signature of its first two segments. -/
theorem jwtVerify_sound (hL : JwtLaws L) {now : ℤ} {token : List Char} {secret : Bytes}
    {policy : JwtExpPolicy} {claims : Claims}
    (h : jwtVerify L now token secret policy = .ok claims) :
    ∃ header payload sig, token.splitOn '.' = [header, payload, sig] ∧ Hs256Header L header ∧
      L.b64urlDecode sig = .ok (L.hmacSha256 secret (asBytes (header ++ '.' :: payload))) := by
  unfold jwtVerify at h
  split at h
  · rename_i header payload sig hsplit
    obtain ⟨_, hheader, h⟩ := bind_eq_ok.mp h
    obtain ⟨sigBytes, hsig, h⟩ := bind_eq_ok.mp h
    refine ⟨header, payload, sig, hsplit, checkHeader_eq_ok hL hheader, ?_⟩
    split at h
    · rename_i heq
      rw [b64urlDecode_eq_ok hsig, heq]
    · cases h
  · cases h

theorem jwtPayload_eq_ok {c : Claims} {payload : List Char}
    (h : jwtPayload L c = .ok payload) : ∃ json, L.toJson c.canonical = .ok json ∧
      payload = L.b64urlEncode (asBytes json) := by
  obtain ⟨json, hjson, hpayload⟩ := map_eq_ok.mp h
  unfold canonicalJson at hjson
  split at hjson
  · rename_i heq
    exact ⟨json, heq.trans (congrArg _ (Except.ok.inj hjson)), hpayload.symm⟩
  · cases hjson

theorem asBytes_inj {s t : List Char} (h : asBytes s = asBytes t) : s = t := by
  have hbytes : (String.ofList s).toUTF8 = (String.ofList t).toUTF8 :=
    ByteArray.ext (Array.toList_inj.mp h)
  exact String.ofList_inj.mp (String.toByteArray_inj.mp hbytes)

theorem jwtPayload_eq_iff (hL : JwtLaws L) {c d : Claims} (hc : c.Plain) (hd : d.Plain)
    {p q : List Char} (hp : jwtPayload L c = .ok p) (hq : jwtPayload L d = .ok q) :
    p = q ↔ c.Same d := by
  rw [← Claims.canonical_eq_iff hc hd]
  obtain ⟨json, hjson, rfl⟩ := jwtPayload_eq_ok hp
  obtain ⟨json', hjson', rfl⟩ := jwtPayload_eq_ok hq
  constructor
  · intro h
    have hbytes : asBytes json = asBytes json' := by
      have := congrArg L.b64urlDecode h
      rw [hL.decode_encode, hL.decode_encode] at this
      exact Except.ok.inj this
    obtain rfl : json = json' := asBytes_inj hbytes
    exact hL.write_inj _ _ json hc.canonical.1 hc.canonical.2 hd.canonical.1 hd.canonical.2 hjson
      hjson'
  · intro h
    rw [h, hjson'] at hjson
    rw [Except.ok.inj hjson]

theorem jwtSign_eq_ok {now : cal.Instant} {claims : Claims} {expiry : ℕ} {secret : Bytes}
    {token : List Char} (h : jwtSign L cal now claims expiry secret = .ok token) :
    now.1 + expiry ≤ cal.last ∧ ∃ payload, jwtPayload L (claims.stamp now.1 expiry) = .ok payload ∧
      token = jwtHeaderB64 ++ '.' :: payload ++ '.' ::
        L.b64urlEncode (L.hmacSha256 secret (asBytes (jwtHeaderB64 ++ '.' :: payload))) := by
  unfold jwtSign at h
  split at h
  · cases h
  · split at h
    · cases h
    · rename_i hlast
      obtain ⟨payload, hpayload, htoken⟩ := map_eq_ok.mp h
      exact ⟨not_lt.mp hlast, payload, hpayload, htoken.symm⟩

/-- What verifying makes of a signed token is what it makes of the text of its claims. -/
theorem jwtVerify_of_jwtSign (hL : JwtLaws L) {now : cal.Instant} {claims : Claims} {expiry : ℕ}
    {secret : Bytes} {token : List Char} (h : jwtSign L cal now claims expiry secret = .ok token) :
    ∃ json, L.toJson (claims.stamp now.1 expiry).canonical = .ok json ∧
      ∀ (t : ℤ) policy, jwtVerify L t token secret policy =
        match L.claimsFromSlice (asBytes json) with
        | .error e => .error (.verifyError ("payload decode: " ++ e))
        | .ok claims => checkExpiry t claims policy := by
  obtain ⟨-, payload, hpayload, rfl⟩ := jwtSign_eq_ok h
  obtain ⟨json, hjson, rfl⟩ := jwtPayload_eq_ok hpayload
  refine ⟨json, hjson, fun t policy ↦ ?_⟩
  have hsplit : (jwtHeaderB64 ++ '.' :: L.b64urlEncode (asBytes json) ++ '.' :: L.b64urlEncode
      (L.hmacSha256 secret (asBytes (jwtHeaderB64 ++ '.' :: L.b64urlEncode (asBytes json))))).splitOn
        '.' = [jwtHeaderB64, L.b64urlEncode (asBytes json), L.b64urlEncode
      (L.hmacSha256 secret (asBytes (jwtHeaderB64 ++ '.' :: L.b64urlEncode (asBytes json))))] := by
    have hheader : '.' ∉ jwtHeaderB64 := by decide
    rw [append_assoc, cons_append,
      splitOn_append_cons_self_of_not_mem hheader,
      splitOn_append_cons_self_of_not_mem (hL.no_dot _),
      splitOn_eq_singleton (hL.no_dot _)]
  have hdecode : ∀ bytes, b64urlDecode L (L.b64urlEncode bytes) = .ok bytes := by
    intro bytes
    unfold b64urlDecode
    rw [hL.decode_encode]
  unfold jwtVerify
  rw [hsplit]
  have hheader : checkHeader L jwtHeaderB64 = .ok () := if_pos rfl
  dsimp only
  rw [hheader, hdecode, hdecode]
  dsimp only [bind, Except.bind]
  rw [if_pos rfl]

theorem Calendar.timestamp_expiry_mem {now : cal.Instant} {expiry : ℕ}
    (hlast : now.1 + expiry ≤ cal.last) :
    -2 ^ 63 ≤ timestamp (now.1 + expiry) ∧ timestamp (now.1 + expiry) < 2 ^ 63 :=
  cal.timestamp_mem ⟨now.1 + expiry, by have := now.2.1; omega, hlast⟩

theorem checkExpiry_stamp {now : cal.Instant} {claims : Claims} {expiry : ℕ}
    (hlast : now.1 + expiry ≤ cal.last) (t : ℤ) (policy : JwtExpPolicy) :
    checkExpiry t (claims.stamp now.1 expiry).canonical policy =
      if timestamp (now.1 + expiry) < timestamp t then .error (.verifyError "token expired")
      else .ok (claims.stamp now.1 expiry).canonical := by
  have hget : ((claims.stamp now.1 expiry).canonical.get "exp").bind Json.asI64 =
      some (timestamp (now.1 + expiry)) := by
    rw [Claims.get_canonical, Claims.stamp, Claims.get_insert_self, Option.map_some,
      Option.bind_some]
    exact Json.asI64_ofTimestamp (Calendar.timestamp_expiry_mem hlast)
  unfold checkExpiry
  rw [hget]

/-- A token is verified to its claims if and only if they can be read back. -/
theorem jwtVerify_signed_iff (hL : JwtLaws L) {now : cal.Instant} {claims : Claims} {expiry : ℕ}
    {secret : Bytes} {token : List Char} (hplain : claims.Plain)
    (h : jwtSign L cal now claims expiry secret = .ok token) :
    (∀ (t : cal.Instant) policy, jwtVerify L t token secret policy =
      if timestamp (now.1 + expiry) < timestamp t then .error (.verifyError "token expired")
      else .ok (claims.stamp now.1 expiry).canonical) ↔
    (claims.stamp now.1 expiry).toValue.depth < recursionLimit := by
  have hlast := (jwtSign_eq_ok h).1
  obtain ⟨json, hjson, hverify⟩ := jwtVerify_of_jwtSign hL h
  have hstamped := hplain.stamp (cal.timestamp_mem now) (Calendar.timestamp_expiry_mem hlast)
  rw [← Json.depth_sortAllObjects, ← Claims.toValue_canonical]
  constructor
  · intro hall
    by_contra hdeep
    obtain ⟨e, he⟩ := hL.recursion_limit _ json hjson (not_lt.mp hdeep)
    -- at the time of signing the token has not expired
    have hle : timestamp now.1 ≤ timestamp (now.1 + expiry) :=
      Int.ediv_le_ediv (by decide) (by omega)
    have hnow := hall now .required
    rw [hverify, he, if_neg (not_lt.mpr hle)] at hnow
    cases hnow
  · intro hdepth t policy
    have hread := hL.read_write _ json hstamped.canonical.1 hstamped.canonical.2 hjson hdepth
    rw [hverify, hread]
    exact checkExpiry_stamp hlast t policy

variable (L cal) in
/-- **Signing and verifying agree.** A signed token is verified to the stamped claims, up to the
order of keys, until it expires, under both policies, if and only if the claims are not nested too
deep to be read. Sets of claims have the same payload if and only if they are the same. A token that
is accepted has three segments, a header that names the algorithm and the signature of its first two
segments. -/
theorem jwt_agree (hL : JwtLaws L) :
    (∀ (now : cal.Instant) claims expiry secret token, claims.Plain →
      jwtSign L cal now claims expiry secret = .ok token →
      (claims.stamp now.1 expiry).canonical.Same (claims.stamp now.1 expiry) ∧
      ((∀ (t : cal.Instant) policy, jwtVerify L t token secret policy =
        if timestamp (now.1 + expiry) < timestamp t then .error (.verifyError "token expired")
        else .ok (claims.stamp now.1 expiry).canonical) ↔
      (claims.stamp now.1 expiry).toValue.depth < recursionLimit)) ∧
    (∀ c d : Claims, c.Plain → d.Plain → ∀ p q, jwtPayload L c = .ok p → jwtPayload L d = .ok q →
      (p = q ↔ c.Same d)) ∧
    ∀ now token secret policy claims, jwtVerify L now token secret policy = .ok claims →
      ∃ header payload sig, token.splitOn '.' = [header, payload, sig] ∧ Hs256Header L header ∧
        L.b64urlDecode sig = .ok (L.hmacSha256 secret (asBytes (header ++ '.' :: payload))) := by
  refine ⟨fun now claims expiry secret token hplain h ↦ ⟨?_, jwtVerify_signed_iff hL hplain h⟩,
    fun c d hc hd p q hp hq ↦ jwtPayload_eq_iff hL hc hd hp hq,
    fun now token secret policy claims ↦ jwtVerify_sound hL⟩
  exact Claims.same_canonical (hplain.stamp (cal.timestamp_mem now)
    (Calendar.timestamp_expiry_mem (jwtSign_eq_ok h).1))

end

/-! ## Two tokens -/

def readHeader (bytes : Bytes) : Except String Json :=
  if bytes = asBytes "\x7b\"alg\":\"HS256\",\"typ\":\"JWT\"\x7d".toList then
    .ok (.object [("alg", .string "HS256"), ("typ", .string "JWT")])
  else .error "not the header"

/-- A library in which one set of claims has a text, and all texts have one digest. -/
def libraryOf (digest : Bytes) (written : Claims → Bool) (json : List Char)
    (read : Except String Claims) : JwtLibrary where
  hmacSha256 _ _ := digest
  b64urlEncode := Base64.encode
  b64urlDecode s := (Base64.decode s).elim (.error "invalid Base64 encoding") .ok
  toJson c := if written c then .ok json else .error "not these claims"
  claimsFromSlice bytes := if bytes = asBytes json then read else .error "not these claims"
  valueFromSlice := readHeader
  rangeError := "Source duration value is out of range for the target type"

def tokenOf (json : List Char) (digest : Bytes) : List Char :=
  jwtHeaderB64 ++ '.' :: Base64.encode (asBytes json) ++ '.' :: Base64.encode digest

section

variable {digest : Bytes} {written : Claims → Bool} {json : List Char} {read : Except String Claims}

theorem toJson_libraryOf {c : Claims} {text : List Char} :
    (libraryOf digest written json read).toJson c = .ok text ↔ written c = true ∧ json = text := by
  unfold libraryOf
  dsimp only
  split
  · rename_i hc
    exact ⟨fun h ↦ ⟨hc, Except.ok.inj h⟩, fun h ↦ congrArg _ h.2⟩
  · rename_i hc
    refine iff_of_false ?_ fun h ↦ hc h.1
    rintro ⟨⟩

theorem claimsFromSlice_libraryOf :
    (libraryOf digest written json read).claimsFromSlice (asBytes json) = read := by
  unfold libraryOf
  dsimp only
  rw [if_pos rfl]

/-- The laws hold if the claims are read back, or are nested too deep and refused. -/
theorem libraryOf_laws (claims : Claims) (hwritten : ∀ c, written c = true → c = claims)
    (hshallow : claims.toValue.depth < recursionLimit → read = .ok claims)
    (hdeep : recursionLimit ≤ claims.toValue.depth → ∃ e, read = .error e) :
    JwtLaws (libraryOf digest written json read) where
  decode_encode bytes := by
    change (Base64.decode (Base64.encode bytes)).elim _ _ = _
    rw [Base64.decode_encode]
    rfl
  no_dot bytes h := (by decide : '.' ∉ Base64.alphabet) (Base64.mem_encode h)
  header := by
    have hread : readHeader (asBytes "\x7b\"alg\":\"HS256\",\"typ\":\"JWT\"\x7d".toList) =
        .ok (.object [("alg", .string "HS256"), ("typ", .string "JWT")]) := if_pos rfl
    have hvalue : (libraryOf digest written json read).valueFromSlice = readHeader := rfl
    rw [hvalue]
    refine ⟨_, _, ?_, hread, rfl⟩
    have h : Base64.decode jwtHeaderB64 =
        some (asBytes "\x7b\"alg\":\"HS256\",\"typ\":\"JWT\"\x7d".toList) := by decide +kernel
    have hdecode : (libraryOf digest written json read).b64urlDecode jwtHeaderB64 =
        (Base64.decode jwtHeaderB64).elim (.error "invalid Base64 encoding") .ok := rfl
    rw [hdecode, h]
    rfl
  read_write c text _ _ h hdepth := by
    obtain ⟨hc, rfl⟩ := toJson_libraryOf.mp h
    obtain rfl := hwritten c hc
    exact claimsFromSlice_libraryOf.trans (hshallow hdepth)
  recursion_limit c text h hdepth := by
    obtain ⟨hc, rfl⟩ := toJson_libraryOf.mp h
    obtain rfl := hwritten c hc
    obtain ⟨e, he⟩ := hdeep hdepth
    exact ⟨e, claimsFromSlice_libraryOf.trans he⟩
  write_inj c d text _ _ _ _ h h' :=
    (hwritten c (toJson_libraryOf.mp h).1).trans (hwritten d (toJson_libraryOf.mp h').1).symm

theorem jwtSign_libraryOf {cal : Calendar} {now : cal.Instant} {claims : Claims} {expiry : ℕ}
    (hexpiry : expiry ≤ cal.maxDelta) (hlast : now.1 + expiry ≤ cal.last)
    (h : written (claims.stamp now.1 expiry).canonical = true) (secret : Bytes) :
    jwtSign (libraryOf digest written json read) cal now claims expiry secret =
      .ok (tokenOf json digest) := by
  rw [jwtSign, if_neg (not_lt.mpr hexpiry), if_neg (not_lt.mpr hlast), jwtEncodeUnstamped,
    jwtPayload, canonicalJson, toJson_libraryOf.mpr ⟨h, rfl⟩]
  rfl

end

theorem Claims.ext_entries {c d : Claims} (h : c.entries = d.entries) : c = d :=
  Claims.toValue_inj.mp (congrArg Json.object h)

/-- Six years from the start of the epoch. -/
def sampleCalendar : Calendar where
  maxDelta := 10 ^ 17
  first := 0
  last := 2 * 10 ^ 17
  first_ge := by decide
  last_lt := by decide

/-- The claims of a user, signed at the start of the epoch for an hour. -/
def userClaims : Claims where
  entries := [("exp", .number (.posInt 3600)), ("iat", .number (.posInt 0)), ("sub", .string "u")]
  ascending := by
    have h : (["exp", "iat", "sub"] : List String).Pairwise (· < ·) := by decide
    exact pairwise_map.mp h

def isUserClaims (c : Claims) : Bool :=
  match c.entries with
  | [("exp", .number (.posInt 3600)), ("iat", .number (.posInt 0)), ("sub", .string "u")] => true
  | _ => false

def userJson : List Char := "\x7b\"exp\":3600,\"iat\":0,\"sub\":\"u\"\x7d".toList

/-- The digest of its token under the key `k`. -/
def userDigest : Bytes :=
  [1, 244, 224, 123, 85, 59, 114, 12, 247, 182, 198, 51, 159, 176, 69, 223, 139, 57, 208, 46, 127,
    150, 234, 97, 208, 28, 241, 133, 56, 112, 163, 234]

def userLibrary : JwtLibrary := libraryOf userDigest isUserClaims userJson (.ok userClaims)

theorem userLibrary_laws : JwtLaws userLibrary := by
  have hdepth : userClaims.toValue.depth < recursionLimit := by decide
  refine libraryOf_laws userClaims (fun c hc ↦ ?_) (fun _ ↦ rfl)
    fun hdeep ↦ absurd hdepth (not_lt.mpr hdeep)
  unfold isUserClaims at hc
  split at hc
  · rename_i h
    exact Claims.ext_entries h
  · cases hc

def userSubject : Claims where
  entries := [("sub", .string "u")]
  ascending := pairwise_singleton _ _

def userToken : List Char := tokenOf userJson userDigest

theorem userToken_eq : jwtSign userLibrary sampleCalendar ⟨0, by decide⟩ userSubject
    (3600 * 10 ^ 9) [107] = .ok userToken :=
  jwtSign_libraryOf (by decide) (by decide) rfl [107]

theorem jwt_agree_user :
    (userSubject.stamp 0 (3600 * 10 ^ 9)).canonical.Same (userSubject.stamp 0 (3600 * 10 ^ 9)) ∧
      ∀ (t : sampleCalendar.Instant) policy, jwtVerify userLibrary t userToken [107] policy =
        if timestamp (0 + (3600 * 10 ^ 9 : ℕ)) < timestamp t then
          .error (.verifyError "token expired")
        else .ok (userSubject.stamp 0 (3600 * 10 ^ 9)).canonical := by
  have hplain : userSubject.Plain := by
    refine .object (nodup_singleton _) fun e he ↦ ?_
    obtain rfl := mem_singleton.mp he
    exact .string "u"
  have hagree := (jwt_agree userLibrary sampleCalendar userLibrary_laws).1 ⟨0, by decide⟩
    userSubject (3600 * 10 ^ 9) [107] userToken hplain userToken_eq
  exact ⟨hagree.1, hagree.2.mpr (by decide)⟩

/-- Empty arrays in arrays. -/
def arrays : ℕ → Json
  | 0 => .array []
  | n + 1 => .array [arrays n]

def isArrays : ℕ → Json → Bool
  | 0, .array [] => true
  | n + 1, .array [v] => isArrays n v
  | _, _ => false

theorem isArrays_arrays (n : ℕ) : isArrays n (arrays n) = true := by
  induction n with
  | zero => rfl
  | succ n ih => exact ih

theorem sortAllObjects_arrays (n : ℕ) : (arrays n).sortAllObjects = arrays n := by
  induction n with
  | zero => rfl
  | succ n ih => rw [arrays, Json.sortAllObjects_array, map_singleton, ih]

theorem eq_arrays_of_isArrays {n : ℕ} {v : Json} (h : isArrays n v = true) : v = arrays n := by
  fun_induction isArrays n v with
  | case1 => rfl
  | case2 n v ih => rw [ih h, arrays]
  | case3 => cases h

theorem depth_arrays (n : ℕ) : (arrays n).depth = n + 1 := by
  induction n with
  | zero => rfl
  | succ n ih =>
    rw [arrays, Json.depth, Json.itemsDepth, Json.itemsDepth, ih]
    rfl

theorem plain_arrays (n : ℕ) : (arrays n).Plain := by
  induction n with
  | zero => exact .array fun v hv ↦ absurd hv not_mem_nil
  | succ n ih =>
    refine .array fun v hv ↦ ?_
    obtain rfl := mem_singleton.mp hv
    exact ih

/-- Claims with 127 arrays in one another, which makes 128 containers. -/
def deepSubject : Claims where
  entries := [("a", arrays 126)]
  ascending := pairwise_singleton _ _

def deepClaims : Claims where
  entries := [("a", arrays 126), ("exp", .number (.posInt 3600)), ("iat", .number (.posInt 0))]
  ascending := by
    have h : (["a", "exp", "iat"] : List String).Pairwise (· < ·) := by decide
    exact pairwise_map.mp h

def isDeepClaims (c : Claims) : Bool :=
  match c.entries with
  | [("a", v), ("exp", .number (.posInt 3600)), ("iat", .number (.posInt 0))] => isArrays 126 v
  | _ => false

def deepJson : List Char :=
  "\x7b\"a\":".toList ++ replicate 127 '[' ++ replicate 127 ']' ++ ",\"exp\":3600,\"iat\":0\x7d".toList

def deepDigest : Bytes :=
  [146, 208, 250, 179, 46, 233, 12, 195, 103, 94, 11, 87, 7, 104, 58, 1, 226, 218, 136, 101, 61, 208,
    187, 123, 10, 75, 102, 242, 37, 232, 51, 144]

def deepLibrary : JwtLibrary :=
  libraryOf deepDigest isDeepClaims deepJson
    (.error "recursion limit exceeded at line 1 column 132")

theorem depth_deepClaims : deepClaims.toValue.depth = 128 := by
  have h : deepClaims.toValue.depth = max (arrays 126).depth 0 + 1 := rfl
  rw [h, depth_arrays]
  rfl

theorem deepLibrary_laws : JwtLaws deepLibrary := by
  refine libraryOf_laws deepClaims (fun c hc ↦ ?_) (fun hshallow ↦ ?_) fun _ ↦ ⟨_, rfl⟩
  · unfold isDeepClaims at hc
    split at hc
    · rename_i h
      refine Claims.ext_entries ?_
      rw [h, eq_arrays_of_isArrays hc]
      rfl
    · cases hc
  · rw [depth_deepClaims] at hshallow
    exact absurd hshallow (lt_irrefl 128)

theorem deepToken_eq : jwtSign deepLibrary sampleCalendar ⟨0, by decide⟩ deepSubject
    (3600 * 10 ^ 9) [107] = .ok (tokenOf deepJson deepDigest) := by
  have hentries : (deepSubject.stamp 0 (3600 * 10 ^ 9)).canonical.entries =
      [("a", (arrays 126).sortAllObjects), ("exp", .number (.posInt 3600)),
        ("iat", .number (.posInt 0))] := rfl
  have hwritten : isDeepClaims (deepSubject.stamp 0 (3600 * 10 ^ 9)).canonical = true := by
    rw [isDeepClaims, hentries, sortAllObjects_arrays]
    exact isArrays_arrays 126
  exact jwtSign_libraryOf (by decide) (by decide) hwritten [107]

/-- A token of claims that are nested too deep is signed, and refused. -/
theorem deep_claims_refused :
    ¬∀ (L : JwtLibrary) (cal : Calendar), JwtLaws L →
      ∀ (now : cal.Instant) claims expiry secret token, claims.Plain →
        jwtSign L cal now claims expiry secret = .ok token →
        ∀ (t : cal.Instant) policy, jwtVerify L t token secret policy =
          if timestamp (now.1 + expiry) < timestamp t then .error (.verifyError "token expired")
          else .ok (claims.stamp now.1 expiry).canonical := by
  intro hall
  have hplain : deepSubject.Plain := by
    refine .object (nodup_singleton _) fun e he ↦ ?_
    obtain rfl := mem_singleton.mp he
    exact plain_arrays 126
  have hverify := hall deepLibrary sampleCalendar deepLibrary_laws ⟨0, by decide⟩ deepSubject
    (3600 * 10 ^ 9) [107] _ hplain deepToken_eq
  rw [jwtVerify_signed_iff deepLibrary_laws hplain deepToken_eq] at hverify
  have hdepth : (deepSubject.stamp 0 (3600 * 10 ^ 9)).toValue.depth = 128 := depth_deepClaims
  exact absurd (hdepth ▸ hverify) (lt_irrefl 128)

end WaferRun
