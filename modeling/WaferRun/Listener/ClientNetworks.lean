import WaferRun.Listener.TrustedProxies

/-!
# Client networks

The limiter charges a client under a text. Clients at IPv4 addresses are charged alone, and other
clients together with their network of the configured length. However an address is spelled, the
text is the same for one client or network, and different for two (`clientNetwork_eq_iff`).
-/

open List

namespace WaferRun

/-- Addresses are printed in different ways, those of IPv4 without a slash. -/
structure NetText.Prints (N : NetText) : Prop where
  showV4_injective : Function.Injective N.showV4
  showV6_injective : Function.Injective N.showV6
  slash_notMem_showV4 : ∀ addr, '/' ∉ (N.showV4 addr).toList

def NetText.parseRemote (N : NetText) (remoteAddr : String) : Option IpAddr :=
  let value := Text.trim remoteAddr.toList
  (N.parseIp value).or (N.parseSocketIp value)

def IpAddr.Carries : IpAddr → BitVec 32 → Prop
  | .v4 addr, a => addr = a
  | .v6 addr, a => addr = mapped a

/-- The address is no IPv4 address, and `addr` otherwise. -/
def IpAddr.Genuine (ip : IpAddr) (addr : BitVec 128) : Prop :=
  ip = .v6 addr ∧ ∀ a, addr ≠ mapped a

/-- The shift of the mask, if it neither underflows nor overflows. -/
def checkedMask (ipv6Prefix : ℕ) : Option (BitVec 128) :=
  if ipv6Prefix ≤ 128 ∧ 128 - ipv6Prefix < 128 then
    some (BitVec.allOnes 128 <<< (128 - ipv6Prefix))
  else none

theorem masked_eq_iff {ipv6Prefix : ℕ} (hle : ipv6Prefix ≤ 128) (x y : BitVec 128) :
    x &&& BitVec.allOnes 128 <<< (128 - ipv6Prefix) =
        y &&& BitVec.allOnes 128 <<< (128 - ipv6Prefix) ↔
      ∀ i < ipv6Prefix, x.getMsbD i = y.getMsbD i := by
  have hbit : ∀ z : BitVec 128, ∀ i, (z &&& BitVec.allOnes 128 <<< (128 - ipv6Prefix)).getMsbD i =
      (z.getMsbD i && decide (i < ipv6Prefix)) := by
    intro z i
    have hlt : i + (128 - ipv6Prefix) < 128 ↔ i < ipv6Prefix := by omega
    rw [BitVec.getMsbD_and, BitVec.getMsbD_shiftLeft, BitVec.getMsbD_allOnes,
      decide_eq_decide.mpr hlt]
  constructor
  · intro heq i hi
    have hx := hbit x i
    rw [heq, hbit y i, decide_eq_true hi, Bool.and_true, Bool.and_true] at hx
    exact hx.symm
  · intro hbits
    refine BitVec.eq_of_getMsbD_eq fun i _ ↦ ?_
    rw [hbit, hbit]
    by_cases hi : i < ipv6Prefix
    · rw [hbits i hi]
    · rw [decide_eq_false hi, Bool.and_false, Bool.and_false]

theorem IpAddr.carries_or_genuine (ip : IpAddr) :
    (∃ a, ip.Carries a) ∨ ∃ addr, ip.Genuine addr := by
  cases ip with
  | v4 addr => exact .inl ⟨addr, rfl⟩
  | v6 addr =>
    by_cases h : ∃ a, addr = mapped a
    · exact .inl h
    · exact .inr ⟨addr, rfl, not_exists.mp h⟩

theorem IpAddr.Carries.unique {ip : IpAddr} {a b : BitVec 32} (ha : ip.Carries a)
    (hb : ip.Carries b) : a = b := by
  cases ip with
  | v4 addr => exact Eq.trans (Eq.symm ha) hb
  | v6 addr =>
    have hmapped := toIpv4Mapped_eq_some.mpr ha
    rw [toIpv4Mapped_eq_some.mpr hb] at hmapped
    exact (Option.some.inj hmapped).symm

theorem IpAddr.Genuine.not_carries {ip : IpAddr} {addr : BitVec 128} (h : ip.Genuine addr)
    (a : BitVec 32) : ¬ip.Carries a := by
  rw [h.1]
  exact h.2 a

section

variable {N : NetText} {remoteAddr : String} {ip : IpAddr}

theorem clientNetwork_of_carries (hip : N.parseRemote remoteAddr = some ip) {a : BitVec 32}
    (h : ip.Carries a) (ipv6Prefix : ℕ) :
    clientNetwork N remoteAddr ipv6Prefix = some (N.showV4 a) := by
  rw [NetText.parseRemote] at hip
  rw [clientNetwork]
  dsimp only at hip ⊢
  rw [hip]
  cases ip with
  | v4 addr =>
    obtain rfl : addr = a := h
    rfl
  | v6 addr =>
    obtain rfl : addr = mapped a := h
    simp only [Option.bind_eq_bind, Option.bind_some, toIpv4Mapped_eq_some.mpr rfl]

theorem clientNetwork_of_genuine (hip : N.parseRemote remoteAddr = some ip) {addr : BitVec 128}
    (h : ip.Genuine addr) (ipv6Prefix : ℕ) :
    clientNetwork N remoteAddr ipv6Prefix =
      some (N.showV6 (addr &&& BitVec.allOnes 128 <<< (128 - ipv6Prefix)) ++ "/" ++
        toString ipv6Prefix) := by
  obtain ⟨rfl, hne⟩ := h
  have hmapped : toIpv4Mapped addr = none := by
    refine Option.eq_none_iff_forall_ne_some.mpr fun a ha ↦ hne a (toIpv4Mapped_eq_some.mp ha)
  rw [NetText.parseRemote] at hip
  rw [clientNetwork]
  dsimp only at hip ⊢
  rw [hip]
  simp only [Option.bind_eq_bind, Option.bind_some, hmapped]

end

/-- **Networks.** Two remote addresses are charged under one text exactly if they carry one IPv4
address, or are in IPv6 and agree in the bits of the prefix. The shift of the mask is in range. -/
theorem clientNetwork_eq_iff {N : NetText} (hN : N.Prints) {remote remote' : String}
    {ip ip' : IpAddr} (hip : N.parseRemote remote = some ip)
    (hip' : N.parseRemote remote' = some ip') {ipv6Prefix : ℕ} (hpos : 1 ≤ ipv6Prefix)
    (hle : ipv6Prefix ≤ 128) :
    checkedMask ipv6Prefix = some (BitVec.allOnes 128 <<< (128 - ipv6Prefix)) ∧
    ∃ key key', clientNetwork N remote ipv6Prefix = some key ∧
      clientNetwork N remote' ipv6Prefix = some key' ∧
      (key = key' ↔ (∃ a, ip.Carries a ∧ ip'.Carries a) ∨
        ∃ x y, ip.Genuine x ∧ ip'.Genuine y ∧
          ∀ i < ipv6Prefix, x.getMsbD i = y.getMsbD i) := by
  refine ⟨if_pos ⟨hle, by omega⟩, ?_⟩
  have hslash : ∀ a : BitVec 32, ∀ s t : String, N.showV4 a ≠ s ++ "/" ++ t := by
    intro a s t heq
    refine hN.slash_notMem_showV4 a ?_
    rw [heq, String.toList_append, String.toList_append]
    exact mem_append_left _ (mem_append_right _ mem_cons_self)
  rcases ip.carries_or_genuine with ⟨a, ha⟩ | ⟨x, hx⟩ <;>
    rcases ip'.carries_or_genuine with ⟨b, hb⟩ | ⟨y, hy⟩
  · refine ⟨_, _, clientNetwork_of_carries hip ha _, clientNetwork_of_carries hip' hb _, ?_⟩
    constructor
    · intro heq
      obtain rfl : a = b := hN.showV4_injective heq
      exact .inl ⟨a, ha, hb⟩
    · rintro (⟨c, hc, hc'⟩ | ⟨x, _, hx, -⟩)
      · rw [ha.unique hc, hb.unique hc']
      · exact absurd ha (hx.not_carries a)
  · refine ⟨_, _, clientNetwork_of_carries hip ha _, clientNetwork_of_genuine hip' hy _, ?_⟩
    refine iff_of_false (hslash a _ _) ?_
    rintro (⟨c, -, hc⟩ | ⟨x, _, hx, -⟩)
    · exact hy.not_carries c hc
    · exact hx.not_carries a ha
  · refine ⟨_, _, clientNetwork_of_genuine hip hx _, clientNetwork_of_carries hip' hb _, ?_⟩
    refine iff_of_false (hslash b _ _).symm ?_
    rintro (⟨c, hc, -⟩ | ⟨_, y, -, hy, -⟩)
    · exact hx.not_carries c hc
    · exact hy.not_carries b hb
  · refine ⟨_, _, clientNetwork_of_genuine hip hx _, clientNetwork_of_genuine hip' hy _, ?_⟩
    have hkeys : ∀ s t : String, s ++ "/" ++ toString ipv6Prefix = t ++ "/" ++ toString ipv6Prefix ↔
        s = t := by
      intro s t
      rw [String.append_left_inj, String.append_left_inj]
    rw [hkeys, hN.showV6_injective.eq_iff, masked_eq_iff hle]
    constructor
    · exact fun h ↦ .inr ⟨x, y, hx, hy, h⟩
    · rintro (⟨c, hc, -⟩ | ⟨x', y', hx', hy', h⟩)
      · exact absurd hc (hx.not_carries c)
      · cases hx.1.symm.trans hx'.1
        cases hy.1.symm.trans hy'.1
        exact h

/-! ## Dotted addresses -/

def dottedBytes (addr : BitVec 32) : List (List Char) :=
  [24, 16, 8, 0].map fun i ↦ (toString ((addr >>> i).toNat % 256)).toList

theorem toList_showV4 (addr : BitVec 32) :
    (dottedText.showV4 addr).toList = ['.'].intercalate (dottedBytes addr) := by
  simp [dottedText, dottedBytes, intercalate_cons_cons]

theorem notMem_dottedBytes {c : Char} (hc : c.isDigit = false) {addr : BitVec 32} :
    ∀ w ∈ dottedBytes addr, c ∉ w := by
  intro w hw hmem
  obtain ⟨i, -, rfl⟩ := mem_map.mp hw
  rw [Nat.toString_eq_ofList_toDigits, String.toList_ofList] at hmem
  rw [Nat.isDigit_of_mem_toDigits (by decide) (by decide) hmem] at hc
  cases hc

theorem dottedText_prints : dottedText.Prints where
  showV4_injective a b h := by
    have hbytes := congrArg (fun s : String ↦ s.toList.splitOn '.') h
    simp only [toList_showV4] at hbytes
    rw [splitOn_intercalate '.' (notMem_dottedBytes (by decide)) (cons_ne_nil _ _),
      splitOn_intercalate '.' (notMem_dottedBytes (by decide)) (cons_ne_nil _ _)] at hbytes
    have hbyte : ∀ i ∈ [24, 16, 8, 0], (a >>> i).toNat % 256 = (b >>> i).toNat % 256 := by
      intro i hi
      exact Text.repr_injective (String.toList_injective (map_inj_left.mp hbytes i hi))
    simp only [forall_mem_cons, BitVec.toNat_ushiftRight, Nat.shiftRight_eq_div_pow] at hbyte
    apply BitVec.eq_of_toNat_eq
    omega
  showV6_injective _ _ h := BitVec.eq_of_toNat_eq (Text.repr_injective h)
  slash_notMem_showV4 addr hmem := by
    have hbytes := @notMem_dottedBytes '/' (by decide) addr
    rw [toList_showV4] at hmem
    simp only [dottedBytes, map_cons, map_nil, forall_mem_cons] at hbytes hmem
    simp only [intercalate_cons_cons, intercalate_singleton, mem_append, mem_singleton] at hmem
    simp only [hbytes, Char.reduceEq, or_false] at hmem

/-- The address of the network `2001:db8::/64`. -/
def documentationNet : BitVec 128 := 0x20010db8 <<< 96

/-- Reads two addresses of that network too, and writes its own. -/
def groupedText : NetText :=
  { dottedText with
    parseIp := fun s ↦
      ([("2001:db8::1".toList, .v6 (documentationNet + 1)),
        ("2001:db8::2".toList, .v6 (documentationNet + 2))].lookup s).or (dottedText.parseIp s)
    showV6 := fun a ↦ if a = documentationNet then "2001:db8::" else dottedText.showV6 a }

theorem groupedText_prints : groupedText.Prints where
  showV4_injective := dottedText_prints.showV4_injective
  slash_notMem_showV4 := dottedText_prints.slash_notMem_showV4
  showV6_injective a b h := by
    have hne : ∀ n : ℕ, toString n ≠ "2001:db8::" := by
      intro n hn
      have hdigits := congrArg String.toList hn
      rw [Nat.toString_eq_ofList_toDigits, String.toList_ofList] at hdigits
      have hcolon : ':' ∈ Nat.toDigits 10 n := hdigits ▸ by decide
      exact absurd (Nat.isDigit_of_mem_toDigits (by decide) (by decide) hcolon) (by decide)
    change (if _ then _ else _) = (if _ then _ else _) at h
    split_ifs at h with ha hb hb
    · exact ha.trans hb.symm
    · exact absurd h.symm (hne _)
    · exact absurd h (hne _)
    · exact dottedText_prints.showV6_injective h

theorem clientNetwork_eq_iff_spaced :
    let ip := IpAddr.v4 0x0a000001
    let first := IpAddr.v6 (documentationNet + 1)
    let second := IpAddr.v6 (documentationNet + 2)
    (∃ key key', clientNetwork groupedText " 10.0.0.1" 64 = some key ∧
      clientNetwork groupedText "10.0.0.1" 64 = some key' ∧
      (key = key' ↔ (∃ a, ip.Carries a ∧ ip.Carries a) ∨
        ∃ x y, ip.Genuine x ∧ ip.Genuine y ∧ ∀ i < 64, x.getMsbD i = y.getMsbD i)) ∧
    ∃ key key', clientNetwork groupedText " 2001:db8::1" 64 = some key ∧
      clientNetwork groupedText "2001:db8::2" 64 = some key' ∧
      (key = key' ↔ (∃ a, first.Carries a ∧ second.Carries a) ∨
        ∃ x y, first.Genuine x ∧ second.Genuine y ∧ ∀ i < 64, x.getMsbD i = y.getMsbD i) := by
  constructor
  · exact (clientNetwork_eq_iff groupedText_prints (by decide) (by decide) (by decide)
      (by decide)).2
  · exact (clientNetwork_eq_iff groupedText_prints (by decide) (by decide) (by decide)
      (by decide)).2

end WaferRun
