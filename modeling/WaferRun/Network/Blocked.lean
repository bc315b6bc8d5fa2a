import WaferRun.Block.RateLimit

/-!
# Blocked addresses

Requests to the outside go to no private address. An IPv6 address may lead to an IPv4 address that
it embeds, in one of four ways, and is then blocked exactly if that is (`isBlockedIpv6_embeds`). So
a resolver has no way to spell a private address that the filter lets through.
-/

open List

namespace WaferRun

/-- The `i`-th byte. -/
def octet (ip : BitVec 32) (i : ℕ) : BitVec 8 := ip.extractLsb' (24 - 8 * i) 8

/-- The `i`-th group of an IPv6 address. -/
def segment (ip : BitVec 128) (i : ℕ) : BitVec 16 := ip.extractLsb' (112 - 16 * i) 16

def isBlockedIpv4 (ip : BitVec 32) : Bool :=
  let o := octet ip
  if o 0 = 0 then true
  else if o 0 = 127 then true
  else if o 0 = 10 then true
  else if o 0 = 172 ∧ 16 ≤ o 1 ∧ o 1 ≤ 31 then true
  else if o 0 = 192 ∧ o 1 = 168 then true
  else if o 0 = 169 ∧ o 1 = 254 then true
  else if o 0 = 100 ∧ 64 ≤ o 1 ∧ o 1 ≤ 127 then true
  else if o 0 = 192 ∧ o 1 = 0 ∧ o 2 = 0 then true
  else if o 0 = 198 ∧ (o 1 = 18 ∨ o 1 = 19) then true
  -- Multicast.
  else if 224 ≤ o 0 ∧ o 0 ≤ 239 then true
  else if 240 ≤ o 0 then true
  -- Broadcast.
  else if ip = 0xffffffff then true
  else false

/-- The IPv4 address in two consecutive groups. -/
def embeddedV4 (hi lo : BitVec 16) : BitVec 32 :=
  (hi >>> 8).setWidth 8 ++ (hi &&& 0xff).setWidth 8 ++ (lo >>> 8).setWidth 8 ++
    (lo &&& 0xff).setWidth 8

def isBlockedIpv6 (ip : BitVec 128) : Bool :=
  let s := segment ip
  if ip = 1 then true
  else if ip = 0 then true
  else if s 0 &&& 0xffc0 = 0xfe80 then true
  else if s 0 &&& 0xfe00 = 0xfc00 then true
  -- Multicast.
  else if s 0 &&& 0xff00 = 0xff00 then true
  else if [s 0, s 1, s 2, s 3, s 4] = [0, 0, 0, 0, 0] ∧ s 5 = 0xffff then
    isBlockedIpv4 (embeddedV4 (s 6) (s 7))
  else if s 0 = 0x64 ∧ s 1 = 0xff9b ∧ [s 2, s 3, s 4, s 5] = [0, 0, 0, 0] then
    isBlockedIpv4 (embeddedV4 (s 6) (s 7))
  else if [s 0, s 1, s 2, s 3, s 4, s 5] = [0, 0, 0, 0, 0, 0] then
    isBlockedIpv4 (embeddedV4 (s 6) (s 7))
  else if s 0 = 0x2002 then isBlockedIpv4 (embeddedV4 (s 1) (s 2))
  else false

def isBlockedIp : IpAddr → Bool
  | .v4 ip => isBlockedIpv4 ip
  | .v6 ip => isBlockedIpv6 ip

structure SocketAddr where
  ip : IpAddr
  port : UInt16
deriving DecidableEq

def filterResolved (host : String) (resolved : List SocketAddr) :
    Except String (List SocketAddr) :=
  let filtered := resolved.filter fun s ↦ !isBlockedIp s.ip
  if filtered.isEmpty then
    .error ("DNS resolution for " ++ host ++
      " returned no public IPs (blocked: private/loopback/link-local)")
  else .ok filtered

/-! ## Embedded addresses -/

/-- The ways of an IPv6 address to embed an IPv4 address. -/
inductive Embeds (a : BitVec 32) : BitVec 128 → Prop
  | mapped : Embeds a ((0xffff : BitVec 96) ++ a)
  | nat64 : Embeds a ((0x64ff9b0000000000000000 : BitVec 96) ++ a)
  | compatible : Embeds a ((0 : BitVec 96) ++ a)
  | sixToFour (low : BitVec 80) : Embeds a ((0x2002 : BitVec 16) ++ a ++ low)

theorem join_bytes (x : BitVec 16) :
    (x >>> 8).setWidth 8 ++ (x &&& 0xff).setWidth 8 = x := by
  have hlow : (x &&& 0xff).setWidth 8 = x.extractLsb' 0 8 := by
    apply BitVec.eq_of_toNat_eq
    have hmask : x.toNat &&& 0xff = x.toNat % 2 ^ 8 := Nat.and_two_pow_sub_one_eq_mod x.toNat 8
    rw [BitVec.toNat_setWidth, BitVec.toNat_and, BitVec.extractLsb'_toNat, Nat.shiftRight_zero]
    change (x.toNat &&& 0xff) % 2 ^ 8 = _
    rw [hmask, Nat.mod_mod]
  rw [hlow, BitVec.setWidth_ushiftRight_eq_extractLsb]
  exact BitVec.extractLsb'_append_extractLsb' (w := 8)

theorem embeddedV4_eq (hi lo : BitVec 16) : embeddedV4 hi lo = hi ++ lo := by
  rw [embeddedV4, join_bytes, BitVec.append_assoc, join_bytes]
  rfl

theorem embeddedV4_extract (a : BitVec 32) :
    embeddedV4 (a.extractLsb' 16 16) (a.extractLsb' 0 16) = a := by
  rw [embeddedV4_eq]
  exact BitVec.extractLsb'_append_extractLsb' (w := 16)

/-- The groups of an address that ends with an IPv4 address. -/
theorem segment_append (top : BitVec 96) (a : BitVec 32) :
    (∀ i < 6, segment (top ++ a) i = top.extractLsb' (80 - 16 * i) 16) ∧
      segment (top ++ a) 6 = a.extractLsb' 16 16 ∧ segment (top ++ a) 7 = a.extractLsb' 0 16 := by
  refine ⟨fun i hi ↦ ?_, ?_, ?_⟩
  · have hsub : 112 - 16 * i - 32 = 80 - 16 * i := by omega
    rw [segment, BitVec.extractLsb'_append_eq_of_le (by omega), hsub]
  · exact BitVec.extractLsb'_append_eq_of_add_le (by decide)
  · exact BitVec.extractLsb'_append_eq_of_add_le (by decide)

/-- The groups of an address with an IPv4 address behind its first group. -/
theorem segment_append_append (top : BitVec 16) (a : BitVec 32) (low : BitVec 80) :
    segment (top ++ a ++ low) 0 = top ∧ segment (top ++ a ++ low) 1 = a.extractLsb' 16 16 ∧
      segment (top ++ a ++ low) 2 = a.extractLsb' 0 16 := by
  refine ⟨?_, ?_, ?_⟩ <;> rw [segment, BitVec.extractLsb'_append_eq_of_le (by decide)]
  · rw [BitVec.extractLsb'_append_eq_of_le (by decide)]
    exact BitVec.extractLsb'_eq_self
  · exact BitVec.extractLsb'_append_eq_of_add_le (by decide)
  · exact BitVec.extractLsb'_append_eq_of_add_le (by decide)

/-- All groups of zero and one but the last are zero. -/
theorem ne_of_segment {ip : BitVec 128} {i : ℕ} (hi : i < 7) (h : segment ip i ≠ 0) :
    ip ≠ 1 ∧ ip ≠ 0 := by
  have hzero : ∀ j < 7, segment 1 j = 0 ∧ segment 0 j = 0 := by decide
  constructor <;> rintro rfl
  · exact h (hzero i hi).1
  · exact h (hzero i hi).2

theorem isBlockedIpv6_mapped (a : BitVec 32) :
    isBlockedIpv6 ((0xffff : BitVec 96) ++ a) = isBlockedIpv4 a := by
  obtain ⟨htop, h6, h7⟩ := segment_append 0xffff a
  generalize (0xffff : BitVec 96) ++ a = ip at *
  have h5 : segment ip 5 = 0xffff := htop 5 (by decide)
  obtain ⟨hone, hzero⟩ := ne_of_segment (i := 5) (by decide) (by rw [h5]; decide)
  rw [isBlockedIpv6, if_neg hone, if_neg hzero]
  simp [htop, h6, h7, embeddedV4_extract]

theorem isBlockedIpv6_nat64 (a : BitVec 32) :
    isBlockedIpv6 ((0x64ff9b0000000000000000 : BitVec 96) ++ a) = isBlockedIpv4 a := by
  obtain ⟨htop, h6, h7⟩ := segment_append 0x64ff9b0000000000000000 a
  generalize (0x64ff9b0000000000000000 : BitVec 96) ++ a = ip at *
  have h0 : segment ip 0 = 0x64 := htop 0 (by decide)
  obtain ⟨hone, hzero⟩ := ne_of_segment (i := 0) (by decide) (by rw [h0]; decide)
  rw [isBlockedIpv6, if_neg hone, if_neg hzero]
  simp [htop, h6, h7, embeddedV4_extract]

theorem isBlockedIpv6_compatible (a : BitVec 32) :
    isBlockedIpv6 ((0 : BitVec 96) ++ a) = isBlockedIpv4 a := by
  obtain ⟨htop, h6, h7⟩ := segment_append 0 a
  have hlow : ∀ b : BitVec 32, (0 : BitVec 96) ++ a = (0 : BitVec 96) ++ b → a = b := by
    intro b h
    have hextract := congrArg (fun ip : BitVec 128 ↦ ip.extractLsb' 0 32) h
    rwa [BitVec.extractLsb'_append_eq_right, BitVec.extractLsb'_append_eq_right] at hextract
  -- The first two conditions ask for addresses that are blocked as IPv4 addresses too.
  by_cases h1 : a = 1
  · subst h1
    decide
  by_cases h0 : a = 0
  · subst h0
    decide
  have hone : (0 : BitVec 96) ++ a ≠ 1 := fun h ↦ h1 (hlow 1 h)
  have hzero : (0 : BitVec 96) ++ a ≠ 0 := fun h ↦ h0 (hlow 0 h)
  generalize (0 : BitVec 96) ++ a = ip at *
  rw [isBlockedIpv6, if_neg hone, if_neg hzero]
  simp [htop, h6, h7, embeddedV4_extract]

theorem isBlockedIpv6_sixToFour (a : BitVec 32) (low : BitVec 80) :
    isBlockedIpv6 ((0x2002 : BitVec 16) ++ a ++ low) = isBlockedIpv4 a := by
  obtain ⟨h0, h1, h2⟩ := segment_append_append 0x2002 a low
  generalize (0x2002 : BitVec 16) ++ a ++ low = ip at *
  obtain ⟨hone, hzero⟩ := ne_of_segment (i := 0) (by decide) (by rw [h0]; decide)
  rw [isBlockedIpv6, if_neg hone, if_neg hzero]
  simp [h0, h1, h2, embeddedV4_extract]

/-- **Embedded addresses.** An address that embeds an IPv4 address is blocked exactly if that is.
What a resolver answers is let through without the blocked addresses, and refused if there are no
others. -/
theorem isBlockedIpv6_embeds :
    (∀ a ip, Embeds a ip → isBlockedIpv6 ip = isBlockedIpv4 a) ∧
    (∀ a, isBlockedIp (.v4 a) = isBlockedIpv4 a) ∧ (∀ ip, isBlockedIp (.v6 ip) = isBlockedIpv6 ip) ∧
    ∀ (host : String) (resolved : List SocketAddr),
      (∀ kept, filterResolved host resolved = .ok kept ↔
        kept = (resolved.filter fun s ↦ !isBlockedIp s.ip) ∧ kept ≠ []) ∧
      ((∃ err, filterResolved host resolved = .error err) ↔
        ∀ s ∈ resolved, isBlockedIp s.ip = true) := by
  refine ⟨?_, fun _ ↦ rfl, fun _ ↦ rfl, fun host resolved ↦ ?_⟩
  · rintro a ip (_ | _ | _ | low)
    · exact isBlockedIpv6_mapped a
    · exact isBlockedIpv6_nat64 a
    · exact isBlockedIpv6_compatible a
    · exact isBlockedIpv6_sixToFour a low
  have hnone : (resolved.filter fun s ↦ !isBlockedIp s.ip) = [] ↔
      ∀ s ∈ resolved, isBlockedIp s.ip = true := by
    simp [filter_eq_nil_iff]
  rw [filterResolved, ← hnone]
  by_cases hempty : (resolved.filter fun s ↦ !isBlockedIp s.ip) = []
  · simp +contextual [hempty]
  · have hne : ¬(resolved.filter fun s ↦ !isBlockedIp s.ip).isEmpty = true :=
      fun h ↦ hempty (isEmpty_iff.mp h)
    rw [if_neg hne]
    refine ⟨fun kept ↦ ?_, iff_of_false (by rintro ⟨_, ⟨⟩⟩) hempty⟩
    constructor
    · intro h
      cases h
      exact ⟨rfl, hempty⟩
    · rintro ⟨rfl, -⟩
      rfl

/-- The metadata service behind NAT64. -/
theorem isBlockedIpv6_embeds_metadata :
    isBlockedIpv6 ((0x64ff9b0000000000000000 : BitVec 96) ++ (0xa9fea9fe : BitVec 32)) = true :=
  (isBlockedIpv6_embeds.1 0xa9fea9fe _ .nat64).trans (by decide)

end WaferRun
