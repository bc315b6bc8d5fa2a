import WaferRun.Lib.Fallible
import WaferRun.Listener.ClientIp

/-!
# Trusted proxies

An operator lists the proxies as addresses and as ranges of addresses. A peer is looked up in its
canonical form, which is IPv4 if there is one, and so is a listed address. A listed range is taken
as it is written, so a range that is written in IPv6 contains no IPv4 peer, not even one whose
mapped form lies in it. Every other entry contains the addresses it denotes, however it and the
peer are written (`trusted_iff_denoted_iff`).
-/

open List

namespace WaferRun

/-- A range: an address and how many of its leading bits count. -/
inductive IpNet
  | v4 (addr : BitVec 32) (prefixLen : Fin 33)
  | v6 (addr : BitVec 128) (prefixLen : Fin 129)
deriving DecidableEq

/-- The crate of ranges: reading one, making one of an address, and asking one for an address. -/
structure NetRanges where
  parse : List Char → Option IpNet
  ofIp : IpAddr → IpNet
  contains : IpNet → IpAddr → Bool

/-- An address makes the range of all its bits, and a range contains the addresses of its own
version that share its leading bits. -/
structure NetRanges.Lawful (R : NetRanges) : Prop where
  ofIp_v4 : ∀ addr, R.ofIp (.v4 addr) = .v4 addr 32
  ofIp_v6 : ∀ addr, R.ofIp (.v6 addr) = .v6 addr 128
  contains_v4 : ∀ addr len ip, R.contains (.v4 addr len) (.v4 ip) = true ↔
    addr >>> (32 - len.val) = ip >>> (32 - len.val)
  contains_v6 : ∀ addr len ip, R.contains (.v6 addr len) (.v6 ip) = true ↔
    addr >>> (128 - len.val) = ip >>> (128 - len.val)
  not_contains_v6 : ∀ addr len ip, R.contains (.v4 addr len) (.v6 ip) = false
  not_contains_v4 : ∀ addr len ip, R.contains (.v6 addr len) (.v4 ip) = false

section

variable (N : NetText) (R : NetRanges)

/-- An address is a range of its own. -/
def parseProxy (e : List Char) : Except String IpNet :=
  match (N.parseIp e).map fun ip ↦ R.ofIp ip.toCanonical with
  | some net => .ok net
  | none =>
    match R.parse e with
    | some net => .ok net
    | none => .error ("invalid trusted_proxies entry '" ++ String.ofList e ++
        "': expected an IP address (e.g. 10.0.0.1, ::1) or CIDR range " ++
        "(e.g. 10.0.0.0/8, 2001:db8::/32)")

def proxyEntries (s : List Char) : List (List Char) :=
  ((s.splitOn ',').map Text.trim).filter fun e ↦ e ≠ []

def parseTrustedProxies (s : List Char) : Except String (List IpNet) :=
  (proxyEntries s).mapM (parseProxy N R)

end

/-! ## Addresses as points

Every address is a point among the IPv6 addresses, an IPv4 address at its mapped form, and every
entry denotes a set of points. -/

def mapped (addr : BitVec 32) : BitVec 128 := (0xffff : BitVec 96) ++ addr

def IpAddr.point : IpAddr → BitVec 128
  | .v4 addr => mapped addr
  | .v6 addr => addr

/-- The points of a range. -/
def IpNet.Holds : IpNet → BitVec 128 → Prop
  | .v4 addr len, x => mapped addr >>> (32 - len.val) = x >>> (32 - len.val)
  | .v6 addr len, x => addr >>> (128 - len.val) = x >>> (128 - len.val)

/-- The points that an entry denotes. -/
def Denotes (N : NetText) (R : NetRanges) (e : List Char) (x : BitVec 128) : Prop :=
  match N.parseIp e with
  | some ip => x = ip.point
  | none => ∃ net, R.parse e = some net ∧ net.Holds x

def IpNet.Misses (net : IpNet) (a : IpAddr) : Prop :=
  ∃ addr len c, net = .v6 addr len ∧ a.toCanonical = .v4 c ∧ net.Holds (mapped c)

/-- The entry is a range in IPv6 that holds the address, which is IPv4. -/
def MissedBy (N : NetText) (R : NetRanges) (e : List Char) (a : IpAddr) : Prop :=
  N.parseIp e = none ∧ ∃ net, R.parse e = some net ∧ net.Misses a

theorem toNat_mapped (a : BitVec 32) : (mapped a).toNat = 0xffff * 2 ^ 32 + a.toNat := by
  rw [mapped, BitVec.toNat_append, ← Nat.shiftLeft_add_eq_or_of_lt a.isLt, Nat.shiftLeft_eq]
  rfl

theorem toIpv4Mapped_eq_some {x : BitVec 128} {a : BitVec 32} :
    toIpv4Mapped x = some a ↔ x = mapped a := by
  have hlt := a.isLt
  constructor
  · intro h
    obtain ⟨htop, ha⟩ := Option.ite_none_right_eq_some.mp h
    obtain rfl : x.setWidth 32 = a := Option.some.inj ha
    have hnat := congrArg BitVec.toNat htop
    rw [BitVec.toNat_ushiftRight, Nat.shiftRight_eq_div_pow] at hnat
    apply BitVec.eq_of_toNat_eq
    rw [toNat_mapped, BitVec.toNat_setWidth]
    change x.toNat / 2 ^ 32 = 0xffff at hnat
    omega
  · rintro rfl
    refine Option.ite_none_right_eq_some.mpr ⟨?_, ?_⟩
    · apply BitVec.eq_of_toNat_eq
      rw [BitVec.toNat_ushiftRight, Nat.shiftRight_eq_div_pow, toNat_mapped]
      change _ = 0xffff
      omega
    · refine congrArg some (BitVec.eq_of_toNat_eq ?_)
      rw [BitVec.toNat_setWidth, toNat_mapped]
      omega

theorem point_toCanonical (a : IpAddr) : a.toCanonical.point = a.point := by
  cases a with
  | v4 addr => rfl
  | v6 addr =>
    rw [IpAddr.toCanonical]
    cases h : toIpv4Mapped addr with
    | none => rfl
    | some c => exact (toIpv4Mapped_eq_some.mp h).symm

theorem ne_mapped_of_toCanonical {a : IpAddr} {x : BitVec 128} (h : a.toCanonical = .v6 x)
    (c : BitVec 32) : x ≠ mapped c := by
  rintro rfl
  cases a with
  | v4 addr => cases h
  | v6 addr =>
    have hpoint := point_toCanonical (.v6 addr)
    rw [h] at hpoint
    rw [← show mapped c = addr from hpoint, IpAddr.toCanonical, toIpv4Mapped_eq_some.mpr rfl] at h
    cases h

theorem mapped_shift_iff {k : ℕ} (hk : k ≤ 32) (a c : BitVec 32) :
    mapped a >>> k = mapped c >>> k ↔ a >>> k = c >>> k := by
  have hsplit : ∀ b : BitVec 32,
      (mapped b).toNat / 2 ^ k = 0xffff * 2 ^ (32 - k) + b.toNat / 2 ^ k := by
    intro b
    rw [toNat_mapped, ← Nat.mul_add_div (Nat.two_pow_pos k), mul_left_comm, ← pow_add,
      Nat.add_sub_cancel' hk]
  rw [← BitVec.toNat_inj, ← BitVec.toNat_inj]
  simp only [BitVec.toNat_ushiftRight, Nat.shiftRight_eq_div_pow, hsplit, Nat.add_left_cancel_iff]

theorem exists_mapped_of_shift {k : ℕ} (hk : k ≤ 32) {a : BitVec 32} {x : BitVec 128}
    (h : mapped a >>> k = x >>> k) : ∃ c, x = mapped c := by
  have htop : x >>> 32 = 0xffff := by
    have hshift := congrArg (fun y : BitVec 128 ↦ y >>> (32 - k)) h
    rw [← BitVec.shiftRight_add, ← BitVec.shiftRight_add, Nat.add_sub_cancel' hk] at hshift
    rw [← hshift]
    exact (Option.ite_none_right_eq_some.mp (toIpv4Mapped_eq_some.mpr (Eq.refl (mapped a)))).1
  exact ⟨_, toIpv4Mapped_eq_some.mp (if_pos htop)⟩

/-! ## What an entry contains -/

section

variable {N : NetText} {R : NetRanges} (hR : R.Lawful)
include hR

theorem contains_iff_holds (net : IpNet) (a : IpAddr) :
    (R.contains net a.toCanonical = true ↔ net.Holds a.point) ↔ ¬net.Misses a := by
  rw [← point_toCanonical a, IpNet.Misses]
  cases hcanonical : a.toCanonical with
  | v4 c =>
    cases net with
    | v4 addr len =>
      refine iff_of_true ((hR.contains_v4 ..).trans ?_) ?_
      · exact (mapped_shift_iff (Nat.sub_le 32 len) addr c).symm
      · rintro ⟨_, _, _, ⟨⟩, -, -⟩
    | v6 addr len =>
      constructor
      · rintro h ⟨_, _, c', -, hc, hholds⟩
        cases hc
        exact Bool.eq_false_iff.mp (hR.not_contains_v4 ..) (h.mpr hholds)
      · intro hmiss
        refine iff_of_false (Bool.eq_false_iff.mp (hR.not_contains_v4 ..)) fun hholds ↦ hmiss ?_
        exact ⟨addr, len, c, rfl, rfl, hholds⟩
  | v6 x =>
    refine iff_of_true ?_ ?_
    · cases net with
      | v4 addr len =>
        refine iff_of_false (Bool.eq_false_iff.mp (hR.not_contains_v6 ..)) fun hholds ↦ ?_
        obtain ⟨c, hc⟩ := exists_mapped_of_shift (Nat.sub_le 32 len) hholds
        exact ne_mapped_of_toCanonical hcanonical c hc
      | v6 addr len => exact hR.contains_v6 ..
    · rintro ⟨_, _, _, -, ⟨⟩, -⟩

theorem holds_ofIp_iff (ip : IpAddr) (x : BitVec 128) : (R.ofIp ip).Holds x ↔ x = ip.point := by
  cases ip with
  | v4 addr =>
    rw [hR.ofIp_v4]
    exact eq_comm
  | v6 addr =>
    rw [hR.ofIp_v6]
    exact eq_comm

theorem not_misses_ofIp (ip a : IpAddr) : ¬(R.ofIp ip.toCanonical).Misses a := by
  rintro ⟨addr, len, c, hnet, -, hholds⟩
  rw [holds_ofIp_iff hR] at hholds
  cases hip : ip.toCanonical with
  | v4 b =>
    rw [hip, hR.ofIp_v4] at hnet
    cases hnet
  | v6 x =>
    rw [hip] at hholds
    exact ne_mapped_of_toCanonical hip c hholds.symm

theorem denoted_iff_of_parseProxy {e : List Char} {net : IpNet} (h : parseProxy N R e = .ok net)
    (a : IpAddr) :
    (R.contains net a.toCanonical = true ↔ Denotes N R e a.point) ↔ ¬MissedBy N R e a := by
  rw [parseProxy] at h
  rw [Denotes, MissedBy]
  cases hip : N.parseIp e with
  | some ip =>
    rw [hip] at h
    obtain rfl : R.ofIp ip.toCanonical = net := Except.ok.inj h
    refine iff_of_true ?_ (by rintro ⟨⟨⟩, -⟩)
    rw [(contains_iff_holds hR _ a).mpr (not_misses_ofIp hR ip a), holds_ofIp_iff hR,
      point_toCanonical]
  | none =>
    rw [hip] at h
    cases hnet : R.parse e with
    | none =>
      rw [hnet] at h
      cases h
    | some net' =>
      rw [hnet] at h
      obtain rfl : net' = net := Except.ok.inj h
      simpa using contains_iff_holds hR net' a

/-- **Spelling.** An entry contains an address exactly if it denotes it, unless it is a range in
IPv6 and the address is IPv4. -/
theorem trusted_iff_denoted_iff {s : List Char} {nets : List IpNet}
    (h : parseTrustedProxies N R s = .ok nets) :
    Forall₂ (fun e net ↦ ∀ a : IpAddr,
      (isTrustedProxy R.contains [net] a.toCanonical = true ↔ Denotes N R e a.point) ↔
        ¬MissedBy N R e a) (proxyEntries s) nets := by
  refine (Fallible.forall₂_of_mapM_eq_ok h).imp fun e net hnet a ↦ ?_
  rw [isTrustedProxy, any_cons, any_nil, Bool.or_false]
  exact denoted_iff_of_parseProxy hR hnet a

end

/-- The ranges where one text is read. -/
def rangesReading (text : List Char) (net : IpNet) : NetRanges where
  parse e := if e = text then some net else none
  ofIp
    | .v4 addr => .v4 addr 32
    | .v6 addr => .v6 addr 128
  contains
    | .v4 addr len, .v4 ip => addr >>> (32 - len.val) = ip >>> (32 - len.val)
    | .v6 addr len, .v6 ip => addr >>> (128 - len.val) = ip >>> (128 - len.val)
    | _, _ => false

theorem rangesReading_lawful (text : List Char) (net : IpNet) : (rangesReading text net).Lawful where
  ofIp_v4 _ := rfl
  ofIp_v6 _ := rfl
  contains_v4 _ _ _ := decide_eq_true_iff
  contains_v6 _ _ _ := decide_eq_true_iff
  not_contains_v6 _ _ _ := rfl
  not_contains_v4 _ _ _ := rfl

theorem trusted_iff_denoted_iff_loopback :
    let R := rangesReading "10.0.0.0/8".toList (.v4 0x0a000000 8)
    Forall₂ (fun e net ↦ ∀ a : IpAddr,
      (isTrustedProxy R.contains [net] a.toCanonical = true ↔ Denotes dottedText R e a.point) ↔
        ¬MissedBy dottedText R e a)
      ["127.0.0.1".toList, "10.0.0.0/8".toList] [.v4 0x7f000001 32, .v4 0x0a000000 8] :=
  trusted_iff_denoted_iff (N := dottedText) (rangesReading_lawful ..)
    (s := "127.0.0.1, 10.0.0.0/8".toList) (by decide)

theorem mapped_range_not_trusted :
    let R := rangesReading "::ffff:10.0.0.0/104".toList (.v6 (mapped 0x0a000000) 104)
    ∃ net, parseTrustedProxies dottedText R "::ffff:10.0.0.0/104".toList = .ok [net] ∧
      isTrustedProxy R.contains [net] (IpAddr.v4 0x0a000001).toCanonical = false ∧
      Denotes dottedText R "::ffff:10.0.0.0/104".toList (IpAddr.v4 0x0a000001).point := by
  have hholds : mapped 0x0a000000 >>> 24 = mapped 0x0a000001 >>> 24 := by decide
  exact ⟨.v6 (mapped 0x0a000000) 104, by decide, by decide, _, rfl, hholds⟩

end WaferRun
