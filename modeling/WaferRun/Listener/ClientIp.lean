import WaferRun.Block.RateLimit

/-!
# The address of a client behind proxies

A proxy tells the address it was contacted from in a field line of the request, which the client
may have sent as well. `resolveClientIp` reads all lines from right to left: addresses of trusted
proxies are skipped, the first other address is the client, and an entry that is no address, or a
line that is no text, ends the walk with the address of the peer.

The walk sees the entries of all lines as one list (`resolveClientIp_eq_walk`), so it does not
matter how a text is divided into lines. What a chain of trusted proxies appends stands to the
right of what the client wrote (`ViaProxies.shielded`), so the walk ends before it gets there
(`remoteAddr_unspoofable`).

How addresses are read and printed and which networks contain them are parameters.
-/

open List

namespace WaferRun

def IpAddr.toCanonical : IpAddr → IpAddr
  | .v4 addr => .v4 addr
  | .v6 addr => (toIpv4Mapped addr).elim (.v6 addr) .v4

def NetText.showIp (N : NetText) : IpAddr → String
  | .v4 addr => N.showV4 addr
  | .v6 addr => N.showV6 addr

def toStr (value : List UInt8) : Option (List Char) :=
  if value.all fun b ↦ 32 ≤ b && b < 127 || b = 9 then
    some (value.map fun b ↦ Char.ofNat b.toNat)
  else none

section

variable {Net : Type} (contains : Net → IpAddr → Bool) (N : NetText) (trustedProxies : List Net)

def isTrustedProxy (ip : IpAddr) : Bool := trustedProxies.any fun net ↦ contains net ip

/-- One entry of a line. An `error` is the address that was found. -/
def walkEntry (peerStr : String) (_leftmostTrusted : Option IpAddr) (entry : List Char) :
    Except String (Option IpAddr) :=
  match (N.parseIp (Text.trim entry)).map IpAddr.toCanonical with
  | some ip =>
    if isTrustedProxy contains trustedProxies ip then .ok (some ip) else .error (N.showIp ip)
  | none => .error peerStr

def walkLine (peerStr : String) (leftmostTrusted : Option IpAddr) (line : Option (List Char)) :
    Except String (Option IpAddr) :=
  match line with
  | none => .error peerStr
  | some line =>
    (line.splitOn ',').reverse.foldlM (walkEntry contains N trustedProxies peerStr) leftmostTrusted

/-- The address a request is attributed to. A line that is not text is `none`. -/
def resolveClientIp (peer : Option IpAddr) (lines : List (Option (List Char))) : String :=
  let peer := peer.map IpAddr.toCanonical
  let peerStr := peer.elim "unknown" N.showIp
  if !peer.any (isTrustedProxy contains trustedProxies) then peerStr
  else
    match lines.reverse.foldlM (walkLine contains N trustedProxies peerStr) none with
    | .error found => found
    | .ok leftmostTrusted => leftmostTrusted.elim peerStr N.showIp

def remoteAddr (peer : Option IpAddr) (values : List (List UInt8)) : String :=
  resolveClientIp contains N trustedProxies peer (values.map toStr)

/-! ## One list of entries -/

/-- The entries of a line from right to left, `none` for what is no address. -/
def hops (line : Option (List Char)) : List (Option IpAddr) :=
  match line with
  | none => [none]
  | some line => (line.splitOn ',').reverse.map fun entry ↦
      (N.parseIp (Text.trim entry)).map IpAddr.toCanonical

def walk (peerStr : String) : Option IpAddr → List (Option IpAddr) → String
  | leftmostTrusted, [] => leftmostTrusted.elim peerStr N.showIp
  | _, none :: _ => peerStr
  | _, some ip :: rest =>
    if isTrustedProxy contains trustedProxies ip then walk peerStr (some ip) rest else N.showIp ip

variable {contains N trustedProxies}

def walkResult (N : NetText) (peerStr : String) : Except String (Option IpAddr) → String
  | .error found => found
  | .ok leftmostTrusted => leftmostTrusted.elim peerStr N.showIp

theorem walkResult_bind_walkLine (peerStr : String) (line : Option (List Char))
    (rest : List (Option IpAddr)) (k : Option IpAddr → Except String (Option IpAddr))
    (hk : ∀ l, walkResult N peerStr (k l) = walk contains N trustedProxies peerStr l rest)
    (l : Option IpAddr) :
    walkResult N peerStr (walkLine contains N trustedProxies peerStr l line >>= k) =
      walk contains N trustedProxies peerStr l (hops N line ++ rest) := by
  rcases line with _ | line
  · rfl
  · unfold walkLine hops
    dsimp only
    induction (line.splitOn ',').reverse generalizing l with
    | nil => exact hk l
    | cons entry entries ih =>
      rw [foldlM_cons, map_cons, cons_append]
      unfold walkEntry
      rcases (N.parseIp (Text.trim entry)).map IpAddr.toCanonical with _ | ip
      · rfl
      · rw [walk]
        dsimp only
        split
        · exact ih (some ip)
        · rfl

/-- **One list.** The walk over the lines is a walk over all their entries. -/
theorem resolveClientIp_eq_walk (peer : IpAddr) (lines : List (Option (List Char)))
    (hpeer : isTrustedProxy contains trustedProxies peer.toCanonical = true) :
    resolveClientIp contains N trustedProxies (some peer) lines =
      walk contains N trustedProxies (N.showIp peer.toCanonical) none
        (lines.reverse.flatMap (hops N)) := by
  have hfold : ∀ (lines : List (Option (List Char))) (l : Option IpAddr),
      walkResult N (N.showIp peer.toCanonical) (lines.foldlM
        (walkLine contains N trustedProxies (N.showIp peer.toCanonical)) l) =
      walk contains N trustedProxies (N.showIp peer.toCanonical) l (lines.flatMap (hops N)) := by
    intro lines
    induction lines with
    | nil => exact fun _ ↦ rfl
    | cons line lines ih =>
      intro l
      rw [foldlM_cons, flatMap_cons]
      exact walkResult_bind_walkLine _ line _ _ ih l
  rw [← hfold]
  have htrusted : ¬(!((some peer).map IpAddr.toCanonical).any
      (isTrustedProxy contains trustedProxies)) = true := by
    rw [Option.map_some, Option.any_some, hpeer]
    exact Bool.false_ne_true
  unfold resolveClientIp
  exact if_neg htrusted

theorem resolveClientIp_of_not_trusted (peer : Option IpAddr) (lines : List (Option (List Char)))
    (hpeer : (peer.map IpAddr.toCanonical).any (isTrustedProxy contains trustedProxies) = false) :
    resolveClientIp contains N trustedProxies peer lines =
      (peer.map IpAddr.toCanonical).elim "unknown" N.showIp := by
  unfold resolveClientIp
  exact if_pos (by rw [hpeer]; rfl)

theorem walk_of_trusted (peerStr : String) {skipped : List IpAddr}
    (hskipped : ∀ ip ∈ skipped, isTrustedProxy contains trustedProxies ip = true)
    (l : Option IpAddr) (rest : List (Option IpAddr)) :
    ∃ l', walk contains N trustedProxies peerStr l (skipped.map some ++ rest) =
      walk contains N trustedProxies peerStr l' rest := by
  induction skipped generalizing l with
  | nil => exact ⟨l, rfl⟩
  | cons ip skipped ih =>
    obtain ⟨hip, hskipped⟩ := forall_mem_cons.mp hskipped
    rw [map_cons, cons_append, walk, if_pos hip]
    exact ih hskipped (some ip)

end

/-! ## How a field is divided into lines -/

/-- What separates the entries of a line. -/
def comma : UInt8 := 44

theorem toStr_append (a b : List UInt8) :
    toStr (a ++ b) = (toStr a).bind fun s ↦ (toStr b).map (s ++ ·) := by
  unfold toStr
  rw [all_append, map_append]
  split <;> rename_i h
  · rw [Bool.and_eq_true] at h
    rw [if_pos h.1, if_pos h.2]
    rfl
  · rw [Bool.and_eq_true, not_and] at h
    split <;> rename_i ha
    · rw [if_neg (h ha)]
      rfl
    · rfl

theorem toStr_comma_cons (b : List UInt8) : toStr (comma :: b) = (toStr b).map (',' :: ·) :=
  toStr_append [comma] b

section

variable {N : NetText}

theorem hops_append {a b : List UInt8} (h : toStr (a ++ comma :: b) ≠ none) :
    hops N (toStr (a ++ comma :: b)) = hops N (toStr b) ++ hops N (toStr a) ∧
      toStr a ≠ none ∧ toStr b ≠ none := by
  rw [toStr_append, toStr_comma_cons] at h ⊢
  rcases ha : toStr a with _ | s
  · rw [ha] at h
    exact absurd rfl h
  · rcases hb : toStr b with _ | t
    · rw [ha, hb] at h
      exact absurd rfl h
    · refine ⟨?_, Option.some_ne_none s, Option.some_ne_none t⟩
      change hops N (some (s ++ ',' :: t)) = _
      unfold hops
      dsimp only
      rw [splitOn_append_cons_self, reverse_append, map_append]

theorem hops_intercalate {pieces : List (List UInt8)} (hne : pieces ≠ [])
    (htext : toStr ([comma].intercalate pieces) ≠ none) :
    hops N (toStr ([comma].intercalate pieces)) =
      (pieces.map toStr).reverse.flatMap (hops N) := by
  induction pieces with
  | nil => exact absurd rfl hne
  | cons piece pieces ih =>
    rcases pieces with _ | ⟨next, pieces⟩
    · rw [intercalate_singleton, map_singleton, reverse_singleton,
        flatMap_singleton]
    · have hjoin : [comma].intercalate (piece :: next :: pieces) =
          piece ++ comma :: [comma].intercalate (next :: pieces) := by
        rw [intercalate_cons_cons, append_assoc, singleton_append]
      rw [hjoin] at htext ⊢
      obtain ⟨hhops, -, hrest⟩ := hops_append (N := N) htext
      have hreverse : ((piece :: next :: pieces).map toStr).reverse =
          ((next :: pieces).map toStr).reverse ++ [toStr piece] := reverse_cons
      rw [hhops, ih (cons_ne_nil _ _) hrest, hreverse, flatMap_append,
        flatMap_singleton]

end

/-! ## A chain of proxies -/

def Reports (N : NetText) (value : List UInt8) (ip : IpAddr) : Prop :=
  ∃ s, toStr value = some s ∧ ',' ∉ s ∧
    (N.parseIp (Text.trim s)).map IpAddr.toCanonical = some ip.toCanonical

inductive Appends (value : List UInt8) : List (List UInt8) → List (List UInt8) → Prop
  | line (values) : Appends value values (values ++ [value])
  | entry (before last) :
    Appends value (before ++ [last]) (before ++ [last ++ comma :: value])

/-- A request of a client on its way through proxies, with the address the next one sees and the
lines of the field. Each proxy reports the address it was contacted from. -/
inductive ViaProxies (N : NetText) (client : IpAddr) (sent : List (List UInt8)) :
    List IpAddr → IpAddr → List (List UInt8) → Prop
  | direct : ViaProxies N client sent [] client sent
  | proxy {proxies peer values values' value} (ip : IpAddr) :
    ViaProxies N client sent proxies peer values → Reports N value peer →
      Appends value values values' → ViaProxies N client sent (proxies ++ [ip]) ip values'

section

variable {Net : Type} {contains : Net → IpAddr → Bool} {N : NetText} {trustedProxies : List Net}

def fieldHops (N : NetText) (values : List (List UInt8)) : List (Option IpAddr) :=
  (values.map toStr).reverse.flatMap (hops N)

theorem fieldHops_append (a b : List (List UInt8)) :
    fieldHops N (a ++ b) = fieldHops N b ++ fieldHops N a := by
  rw [fieldHops, map_append, reverse_append, flatMap_append]
  rfl

theorem fieldHops_singleton (value : List UInt8) : fieldHops N [value] = hops N (toStr value) :=
  append_nil _

theorem Reports.hops {value : List UInt8} {ip : IpAddr} (h : Reports N value ip) :
    hops N (toStr value) = [some ip.toCanonical] := by
  obtain ⟨s, hs, hcomma, hparse⟩ := h
  rw [hs]
  unfold WaferRun.hops
  dsimp only
  rw [splitOn_eq_singleton hcomma, reverse_singleton, map_singleton, hparse]

/-- A reported address becomes the rightmost entry, unless it is put into a line that is no text. -/
theorem Appends.fieldHops {value : List UInt8} {values values' : List (List UInt8)} {ip : IpAddr}
    (hreports : Reports N value ip) (h : Appends value values values') :
    fieldHops N values' = some ip.toCanonical :: fieldHops N values ∨
      (∃ rest, WaferRun.fieldHops N values' = none :: rest) ∧ ∃ v ∈ values', toStr v = none := by
  rcases h with _ | ⟨before, last⟩
  · left
    rw [fieldHops_append, fieldHops_singleton, hreports.hops]
    rfl
  · by_cases htext : toStr (last ++ comma :: value) = none
    · refine .inr ⟨⟨WaferRun.fieldHops N before, ?_⟩, _, mem_append_right _ mem_cons_self,
        htext⟩
      rw [fieldHops_append, fieldHops_singleton, htext]
      rfl
    · left
      rw [fieldHops_append, fieldHops_append, fieldHops_singleton, fieldHops_singleton,
        (hops_append htext).1, hreports.hops]
      rfl

theorem Appends.not_text {value : List UInt8} {values values' : List (List UInt8)}
    (h : Appends value values values') (hv : ∃ v ∈ values, toStr v = none) :
    ∃ v ∈ values', toStr v = none := by
  obtain ⟨v, hmem, hv⟩ := hv
  rcases h with _ | ⟨before, last⟩
  · exact ⟨v, mem_append_left _ hmem, hv⟩
  · rcases mem_append.mp hmem with hmem | hmem
    · exact ⟨v, mem_append_left _ hmem, hv⟩
    · obtain rfl := mem_singleton.mp hmem
      refine ⟨_, mem_append_right _ mem_cons_self, ?_⟩
      rw [toStr_append, hv]
      rfl

/-- **What a client wrote is shielded.** Behind at least one proxy, if all are trusted, the entries
are addresses of proxies and then the client's, or an entry that ends the walk in a line that is no
text. -/
theorem ViaProxies.shielded {client peer : IpAddr} {sent values : List (List UInt8)}
    {proxies : List IpAddr} (h : ViaProxies N client sent proxies peer values)
    (htrusted : ∀ ip ∈ proxies, isTrustedProxy contains trustedProxies ip.toCanonical = true) :
    proxies = [] ∧ peer = client ∨ peer ∈ proxies ∧ ∃ (skipped : List IpAddr) (rest : _),
      (∀ ip ∈ skipped, isTrustedProxy contains trustedProxies ip = true) ∧
      (fieldHops N values = skipped.map some ++ some client.toCanonical :: rest ∨
        fieldHops N values = skipped.map some ++ none :: rest ∧ ∃ v ∈ values, toStr v = none) := by
  induction h with
  | direct => exact .inl ⟨rfl, rfl⟩
  | @proxy proxies peer values values' value ip _ hreports happends ih =>
    refine .inr ⟨mem_append_right _ mem_cons_self, ?_⟩
    rcases happends.fieldHops hreports with hhops | ⟨⟨rest, hhops⟩, hnot⟩
    · rcases ih fun ip hip ↦ htrusted ip (mem_append_left _ hip) with
        ⟨-, rfl⟩ | ⟨hpeer, skipped, rest, hskipped, hshape⟩
      · exact ⟨[], fieldHops N values, forall_mem_nil _, .inl hhops⟩
      · -- the proxy reports a proxy, which is skipped before all others
        refine ⟨peer.toCanonical :: skipped, rest, forall_mem_cons.mpr
          ⟨htrusted peer (mem_append_left _ hpeer), hskipped⟩, ?_⟩
        rw [hhops]
        rcases hshape with hshape | ⟨hshape, hnot⟩
        · exact .inl (by rw [hshape]; rfl)
        · exact .inr ⟨by rw [hshape]; rfl, happends.not_text hnot⟩
    · exact ⟨[], rest, forall_mem_nil _, .inr ⟨hhops, hnot⟩⟩

/-- A request that came through trusted proxies is attributed to the client, or to its peer if some
line is no text. -/
theorem ViaProxies.remoteAddr {client peer : IpAddr} {sent values : List (List UInt8)}
    {proxies : List IpAddr} (h : ViaProxies N client sent proxies peer values)
    (htrusted : ∀ ip ∈ proxies, isTrustedProxy contains trustedProxies ip.toCanonical = true)
    (hclient : isTrustedProxy contains trustedProxies client.toCanonical = false) :
    remoteAddr contains N trustedProxies (some peer) values = N.showIp client.toCanonical ∨
      remoteAddr contains N trustedProxies (some peer) values = N.showIp peer.toCanonical ∧
        ∃ v ∈ values, toStr v = none := by
  rcases h.shielded htrusted with ⟨-, rfl⟩ | ⟨hpeer, skipped, rest, hskipped, hshape⟩
  · exact .inl (resolveClientIp_of_not_trusted _ _ hclient)
  · have hwalk := resolveClientIp_eq_walk (N := N) peer (values.map toStr) (htrusted peer hpeer)
    have hremote : WaferRun.remoteAddr contains N trustedProxies (some peer) values =
        walk contains N trustedProxies (N.showIp peer.toCanonical) none (fieldHops N values) := hwalk
    rcases hshape with hshape | ⟨hshape, hnot⟩
    · left
      obtain ⟨l, hl⟩ := walk_of_trusted (N := N) (N.showIp peer.toCanonical) hskipped none
        (some client.toCanonical :: rest)
      rw [hremote, hshape, hl, walk, if_neg (by rw [hclient]; exact Bool.false_ne_true)]
    · refine .inr ⟨?_, hnot⟩
      obtain ⟨l, hl⟩ := walk_of_trusted (N := N) (N.showIp peer.toCanonical) hskipped none
        (none :: rest)
      rw [hremote, hshape, hl, walk]

theorem remoteAddr_intercalate (peer : Option IpAddr) (before pieces after : List (List UInt8))
    (hne : pieces ≠ []) (htext : toStr ([comma].intercalate pieces) ≠ none) :
    remoteAddr contains N trustedProxies peer (before ++ [comma].intercalate pieces :: after) =
      remoteAddr contains N trustedProxies peer (before ++ pieces ++ after) := by
  unfold WaferRun.remoteAddr
  by_cases hpeer : (peer.map IpAddr.toCanonical).any (isTrustedProxy contains trustedProxies) = true
  · rcases peer with _ | peer
    · cases hpeer
    · have hhops : fieldHops N (before ++ [comma].intercalate pieces :: after) =
          fieldHops N (before ++ pieces ++ after) := by
        rw [fieldHops_append, fieldHops_append, fieldHops_append,
          ← singleton_append, fieldHops_append, fieldHops_singleton,
          hops_intercalate hne htext, append_assoc]
        rfl
      rw [resolveClientIp_eq_walk peer _ hpeer, resolveClientIp_eq_walk peer _ hpeer]
      exact congrArg _ hhops
  · rw [resolveClientIp_of_not_trusted peer _ (Bool.not_eq_true _ ▸ hpeer),
      resolveClientIp_of_not_trusted peer _ (Bool.not_eq_true _ ▸ hpeer)]

variable (contains N trustedProxies) in
/-- **Clients cannot choose their address.** A request that came through trusted proxies is
attributed to its client if its lines are text, and in any case to the client or the peer. Behind a
peer that is not trusted the field is not read. A line that is text has the same meaning as the
lines it is cut into at commas. -/
theorem remoteAddr_unspoofable :
    (∀ client peer sent values proxies, ViaProxies N client sent proxies peer values →
      (∀ ip ∈ proxies, isTrustedProxy contains trustedProxies ip.toCanonical = true) →
      isTrustedProxy contains trustedProxies client.toCanonical = false →
      ((∀ v ∈ values, toStr v ≠ none) → remoteAddr contains N trustedProxies (some peer) values =
        N.showIp client.toCanonical) ∧
      (remoteAddr contains N trustedProxies (some peer) values = N.showIp client.toCanonical ∨
        remoteAddr contains N trustedProxies (some peer) values = N.showIp peer.toCanonical)) ∧
    (∀ peer : Option IpAddr,
      (peer.map IpAddr.toCanonical).any (isTrustedProxy contains trustedProxies) = false →
      ∀ values values', remoteAddr contains N trustedProxies peer values =
        remoteAddr contains N trustedProxies peer values') ∧
    ∀ peer before pieces after, pieces ≠ [] → toStr ([comma].intercalate pieces) ≠ none →
      remoteAddr contains N trustedProxies peer (before ++ [comma].intercalate pieces :: after) =
        remoteAddr contains N trustedProxies peer (before ++ pieces ++ after) := by
  refine ⟨?_, fun peer hpeer values values' ↦ ?_, remoteAddr_intercalate⟩
  · intro client peer sent values proxies h htrusted hclient
    rcases h.remoteAddr htrusted hclient with hremote | ⟨hremote, v, hv, hnot⟩
    · exact ⟨fun _ ↦ hremote, .inl hremote⟩
    · exact ⟨fun htext ↦ absurd hnot (htext v hv), .inr hremote⟩
  · exact (resolveClientIp_of_not_trusted peer _ hpeer).trans
      (resolveClientIp_of_not_trusted peer _ hpeer).symm

end

def dottedText : NetText where
  parseIp s :=
    match (s.splitOn '.').mapM (parseUnsigned 255) with
    | some [a, b, c, d] => some (.v4 (BitVec.ofNat 32 (((a * 256 + b) * 256 + c) * 256 + d)))
    | _ => none
  parseSocketIp _ := none
  showV4 a :=
    let byte (i : ℕ) := toString ((a >>> i).toNat % 256)
    byte 24 ++ "." ++ byte 16 ++ "." ++ byte 8 ++ "." ++ byte 0
  showV6 a := toString a.toNat
  debug s := "\"" ++ String.ofList s ++ "\""

/-- A line that is no text is refused as a whole, its last piece alone is read. -/
theorem remoteAddr_not_text_intercalate :
    ∃ (peer : IpAddr) (pieces : List (List UInt8)), pieces ≠ [] ∧
      remoteAddr (fun net ip : IpAddr ↦ net = ip) dottedText [.v4 0x0a000001] (some peer)
        [[comma].intercalate pieces] = "10.0.0.1" ∧
      remoteAddr (fun net ip : IpAddr ↦ net = ip) dottedText [.v4 0x0a000001] (some peer)
        pieces = "203.0.113.9" := by
  refine ⟨.v4 0x0a000001, [[0xff], "203.0.113.9".toList.map fun c ↦ c.toUInt8], ?_, ?_, ?_⟩
  · exact cons_ne_nil _ _
  · decide +kernel
  · decide +kernel

end WaferRun
