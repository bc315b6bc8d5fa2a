import WaferRun.Crypto.Jwt

/-!
# Expired tokens

A token names the time it expires at in whole seconds. Verifying reads it as a 64-bit integer, and
takes what is none for a missing time. So a policy that accepts tokens without an expiry also
accepts one that expired at a fraction of a second, or before every 64-bit time. No other expired
token is accepted (`expiredRejected_iff`).
-/

namespace WaferRun

open Fallible

/-- The value of a finite double from its bits, in units of the least one, which is `2 ^ -1074`. -/
def doubleUnits (bits : UInt64) : ℤ :=
  let exponent := bits.toNat / 2 ^ 52 % 2 ^ 11
  let fraction := bits.toNat % 2 ^ 52
  let size : ℕ := if exponent = 0 then fraction else (2 ^ 52 + fraction) * 2 ^ (exponent - 1)
  if bits.toNat < 2 ^ 63 then size else -size

def JsonNumber.units : JsonNumber → ℤ
  | .posInt n => n * 2 ^ 1074
  | .negInt n => -n * 2 ^ 1074
  | .float bits => doubleUnits bits

def JsonNumber.Below (n : JsonNumber) (t : ℤ) : Prop := n.units < t * 2 ^ 1074

theorem JsonNumber.below_of_asI64 {n : JsonNumber} {i t : ℤ} (h : (Json.number n).asI64 = some i) :
    n.Below t ↔ i < t := by
  have hunits : n.units = i * 2 ^ 1074 := by
    cases n with
    | posInt n =>
      rw [Json.asI64] at h
      split at h
      · rw [← Option.some.inj h]
        rfl
      · cases h
    | negInt n =>
      rw [← Option.some.inj h]
      rfl
    | float bits => cases h
  rw [Below, hunits]
  exact Int.mul_lt_mul_right (Int.pow_pos (by decide))

variable (L : JwtLibrary) (now : ℤ) (token : List Char) (secret : Bytes)

structure Carries (header payload sig : List Char) (claims : Claims) (exp : JsonNumber) : Prop where
  segments : token.splitOn '.' = [header, payload, sig]
  reads : ∃ bytes, L.b64urlDecode payload = .ok bytes ∧ L.claimsFromSlice bytes = .ok claims
  expires : claims.get "exp" = some (.number exp)

def ExpiredRejected (policy : JwtExpPolicy) : Prop :=
  ∀ header payload sig claims exp, Carries L token header payload sig claims exp →
    exp.Below (timestamp now) → ∀ accepted, jwtVerify L now token secret policy ≠ .ok accepted

/-- The header names the algorithm, and the signature is that of the first two segments. -/
def Authentic (header payload sig : List Char) : Prop :=
  checkHeader L header = .ok () ∧
    L.b64urlDecode sig = .ok (L.hmacSha256 secret (asBytes (header ++ '.' :: payload)))

variable {L now token secret}

theorem b64urlDecode_eq_ok_iff {s : List Char} {bytes : Bytes} :
    b64urlDecode L s = .ok bytes ↔ L.b64urlDecode s = .ok bytes := by
  refine ⟨b64urlDecode_eq_ok, fun h ↦ ?_⟩
  rw [b64urlDecode, h]

theorem jwtVerify_eq_ok_iff {header payload sig : List Char} {claims : Claims} {exp : JsonNumber}
    (h : Carries L token header payload sig claims exp) {policy : JwtExpPolicy}
    {accepted : Claims} :
    jwtVerify L now token secret policy = .ok accepted ↔
      Authentic L secret header payload sig ∧ checkExpiry now claims policy = .ok accepted := by
  obtain ⟨bytes, hbytes, hclaims⟩ := h.reads
  rw [jwtVerify, h.segments, Authentic]
  dsimp only
  constructor
  · intro hok
    obtain ⟨_, hheader, hok⟩ := bind_eq_ok.mp hok
    obtain ⟨sigBytes, hsig, hok⟩ := bind_eq_ok.mp hok
    split at hok
    · rename_i hmac
      obtain ⟨bytes', hbytes', hok⟩ := bind_eq_ok.mp hok
      obtain rfl : bytes = bytes' := Except.ok.inj (hbytes.symm.trans (b64urlDecode_eq_ok hbytes'))
      rw [hclaims] at hok
      exact ⟨⟨hheader, hmac ▸ b64urlDecode_eq_ok hsig⟩, hok⟩
    · cases hok
  · rintro ⟨⟨hheader, hsig⟩, hok⟩
    refine bind_eq_ok.mpr ⟨(), hheader, bind_eq_ok.mpr ⟨_, b64urlDecode_eq_ok_iff.mpr hsig, ?_⟩⟩
    rw [if_pos rfl]
    refine bind_eq_ok.mpr ⟨bytes, b64urlDecode_eq_ok_iff.mpr hbytes, ?_⟩
    rw [hclaims]
    exact hok

/-- An expiry that has passed lets a token through exactly if it is not read and need not be
there. -/
theorem checkExpiry_ok_iff {claims : Claims} {exp : JsonNumber}
    (h : claims.get "exp" = some (.number exp)) (hexp : exp.Below (timestamp now))
    (policy : JwtExpPolicy) :
    (∃ accepted, checkExpiry now claims policy = .ok accepted) ↔
      policy = .allowMissing ∧ (Json.number exp).asI64 = none := by
  unfold checkExpiry
  rw [h, Option.bind_some]
  rcases hread : (Json.number exp).asI64 with _ | i
  · cases policy with
    | required =>
      refine iff_of_false ?_ fun hpol ↦ JwtExpPolicy.noConfusion hpol.1
      rintro ⟨_, hok⟩
      cases hok
    | allowMissing => exact iff_of_true ⟨claims, rfl⟩ ⟨rfl, rfl⟩
  · have hlt : timestamp now > i := (JsonNumber.below_of_asI64 hread).mp hexp
    dsimp only
    rw [if_pos hlt]
    refine iff_of_false ?_ fun hpol ↦ Option.some_ne_none i hpol.2
    rintro ⟨_, hok⟩
    cases hok

/-- **Expired tokens.** A token is rejected once it has expired unless it is authentic, its expiry
is no 64-bit integer, and the policy accepts tokens without one. -/
theorem expiredRejected_iff (L : JwtLibrary) (now : ℤ) (token : List Char) (secret : Bytes)
    (policy : JwtExpPolicy) :
    ExpiredRejected L now token secret policy ↔
      ∀ header payload sig claims exp, Carries L token header payload sig claims exp →
        exp.Below (timestamp now) →
          policy = .required ∨ (Json.number exp).asI64 ≠ none ∨
            ¬Authentic L secret header payload sig := by
  refine forall₅_congr fun header payload sig claims exp ↦ forall₂_congr fun hcarries hexp ↦ ?_
  have hpolicy : policy = .required ↔ policy ≠ .allowMissing := by cases policy <;> decide
  rw [← not_exists]
  simp only [jwtVerify_eq_ok_iff hcarries, exists_and_left]
  rw [checkExpiry_ok_iff hcarries.expires hexp, hpolicy]
  tauto

def halfClaims : Claims where
  entries := [("exp", .number (.float 0x3FE0000000000000))]
  ascending := List.pairwise_singleton _ _

def halfJson : List Char := "\x7b\"exp\":0.5\x7d".toList

/-- The digest of their token under the key `k`. -/
def halfDigest : Bytes :=
  [56, 36, 187, 195, 185, 90, 245, 69, 181, 183, 33, 51, 53, 231, 123, 100, 153, 166, 56, 84, 67,
    103, 129, 27, 228, 224, 24, 247, 198, 154, 235, 149]

def isHalfClaims (c : Claims) : Bool :=
  match c.entries with
  | [("exp", .number (.float 0x3FE0000000000000))] => true
  | _ => false

def halfLibrary : JwtLibrary := libraryOf halfDigest isHalfClaims halfJson (.ok halfClaims)

theorem halfLibrary_laws : JwtLaws halfLibrary := by
  have hdepth : halfClaims.toValue.depth < recursionLimit := by decide
  refine libraryOf_laws halfClaims (fun c hc ↦ ?_) (fun _ ↦ rfl)
    fun hdeep ↦ absurd hdepth (not_lt.mpr hdeep)
  unfold isHalfClaims at hc
  split at hc
  · rename_i h
    exact Claims.ext_entries h
  · cases hc

def halfToken : List Char := tokenOf halfJson halfDigest

theorem half_second_accepted :
    ¬ExpiredRejected halfLibrary (10 ^ 9) halfToken [107] .allowMissing := by
  have hcarries : Carries halfLibrary halfToken jwtHeaderB64 (Base64.encode (asBytes halfJson))
      (Base64.encode halfDigest) halfClaims (.float 0x3FE0000000000000) :=
    ⟨by decide +kernel, ⟨asBytes halfJson, halfLibrary_laws.decode_encode (asBytes halfJson),
      claimsFromSlice_libraryOf⟩, rfl⟩
  have hsig : Authentic halfLibrary [107] jwtHeaderB64 (Base64.encode (asBytes halfJson))
      (Base64.encode halfDigest) :=
    ⟨if_pos rfl, halfLibrary_laws.decode_encode halfDigest⟩
  have hbelow : (JsonNumber.float 0x3FE0000000000000).Below (timestamp (10 ^ 9)) := by
    unfold JsonNumber.Below
    decide +kernel
  exact fun h ↦ h _ _ _ _ _ hcarries hbelow halfClaims
    ((jwtVerify_eq_ok_iff hcarries).mpr ⟨hsig, rfl⟩)

end WaferRun
