import WaferRun.Block.Intersections
import WaferRun.Wrap.Grants

/-!
# Grants of URLs against allowlists of URLs

One outbound request is checked by two matchers. A grant names a pattern that ends in `/*`, an
allowlist an entry. Both compare parsed parts, but not the same ones: the allowlist also looks at
the port and at encoded separators. A grant of everything below an address therefore admits URLs
that an allowlist with that address refuses, exactly those of `Address.AgreesOn`
(`urlPatternMatches_within_entry_iff`).

The parser is a parameter. What is relied on is that a further segment is added to a path as it is
written, that the text which stands for a star is as plain as a star, and that the schemes and
hosts of web URLs come out in a normal form (`UrlParsing`).
-/

open List

namespace WaferRun

open Text

/-! ## Addresses -/

/-- A literal address: a scheme of the web, a host that may carry a port, and a path. -/
structure Address where
  scheme : String
  host : List Char
  path : List Char
  scheme_web : scheme = "http" ∨ scheme = "https"
  host_literal : host ≠ [] ∧ ∀ c ∈ host, ' ' < c ∧ c ∉ ['*', '/', '\\', '?', '#', '@']
  path_absolute : path = [] ∨ path.head? = some '/'
  path_literal : ∀ c ∈ path, ' ' < c ∧ c ∉ ['?', '#']

namespace Address

def write (a : Address) (path : List Char) : String :=
  String.ofList (a.scheme.toList ++ "://".toList ++ a.host ++ path)

def entry (a : Address) : String := a.write a.path

def pattern (a : Address) : String := a.write (a.path ++ ['/', '*'])

end Address

structure UrlParsing (parse : String → Option NetworkUrl) : Prop where
  /-- A scheme that is written in lower case is kept. -/
  scheme : ∀ (a : Address) p, parse a.entry = some p → p.scheme = a.scheme
  /-- Hosts of web URLs are in lower case. -/
  host_lower : ∀ s p h, parse s = some p → p.scheme = "http" ∨ p.scheme = "https" →
    p.host = some h → asciiLower h.toList = h.toList
  /-- A further segment follows the path. If the path ends in a dot segment or is empty, the slash
  before the new segment is already there. -/
  segment : ∀ (a : Address) p, parse a.pattern = some p → ∃ q stem, parse a.entry = some q ∧
    (p.scheme = q.scheme ∧ p.host = q.host ∧ p.portOrKnownDefault = q.portOrKnownDefault) ∧
    p.path.toList = stem ++ ['/', '*'] ∧ (q.path.toList = stem ∨ q.path.toList = stem ++ ['/'])
  /-- The text that stands for a star is kept like a star. -/
  star : ∀ a : Address, parse (a.write (replaceChar '*' starSentinel (a.path ++ ['/', '*']))) =
    (parse a.pattern).map fun p ↦
      { p with path := String.ofList (replaceChar '*' starSentinel p.path.toList) }

def NetworkUrl.forGrants (u : NetworkUrl) : Url := ⟨u.scheme, u.host, u.path⟩

namespace Address

variable (parse : String → Option NetworkUrl) (a : Address)

/-- The parsed address has no star and nothing that would be read as one. -/
def Literal : Prop :=
  ∀ p, parse a.pattern = some p →
    (∀ h, p.host = some h → '*' ∉ h.toList ∧ ¬starSentinel <:+: h.toList) ∧
      ¬starSentinel <:+: p.path.toList

/-- A URL with the scheme and host of the address that lies in its folder has its port, goes on
without encoded separators and, if the address ends in a dot segment, is not the bare folder. -/
def AgreesOn (url : String) : Prop :=
  ∀ p q r stem, parse a.pattern = some p → parse a.entry = some q → parse url = some r →
    p.path.toList = stem ++ ['/', '*'] → q.scheme = r.scheme → q.host = r.host →
    (r.path.toList = stem ∨ stem ++ ['/'] <+: r.path.toList) →
    q.portOrKnownDefault = r.portOrKnownDefault ∧
      hasEncodedSeparator (r.path.toList.drop stem.length) = false ∧
      (q.path.toList = stem ∨ r.path.toList ≠ stem)

end Address

/-! ## The two matchers -/

theorem restoreStars_replaceChar {s : List Char} (h : ¬starSentinel <:+: s) :
    restoreStars (String.ofList (replaceChar '*' starSentinel s)) = s := by
  have hw : 'w' ∉ "afer-star-placeholder".toList := by decide
  rw [restoreStars, String.toList_ofList]
  exact replace_replaceChar hw h

theorem replaceChar_of_not_mem {c : Char} {t s : List Char} (h : c ∉ s) :
    replaceChar c t s = s := by
  induction s with
  | nil => rfl
  | cons d s ih =>
    rw [mem_cons, not_or] at h
    have hcons : replaceChar c t (d :: s) = (if d = c then t else [d]) ++ replaceChar c t s := rfl
    rw [hcons, if_neg fun hd ↦ h.1 hd.symm, ih h.2]
    rfl

theorem restoreStars_of_literal {s : String} (hstar : '*' ∉ s.toList)
    (h : ¬starSentinel <:+: s.toList) : restoreStars s = s.toList := by
  have := restoreStars_replaceChar h
  rwa [replaceChar_of_not_mem hstar, String.ofList_toList] at this

theorem hostPatternMatches_iff_of_literal {pattern host : List Char} (hstar : '*' ∉ pattern)
    (hlower : asciiLower pattern = pattern) :
    hostPatternMatches pattern host = true ↔ pattern = asciiLower host := by
  have hnot : ∀ s, '*' ∈ s → ¬s <+: pattern := fun s hs h ↦ hstar (h.subset hs)
  unfold hostPatternMatches
  dsimp only
  have hpattern : pattern.map Char.toLower = pattern := hlower
  rw [hpattern, if_neg fun h : pattern = ['*'] ↦ hstar (h ▸ mem_singleton_self _),
    if_neg (hnot _ mem_cons_self), if_neg (hnot _ mem_cons_self), decide_eq_true_iff]
  rfl

theorem pathMatches_below_iff {stem path : List Char} :
    pathMatches (stem ++ ['/', '*']) path = true ↔ path = stem ∨ stem ++ ['/'] <+: path := by
  have hlen : (stem ++ ['/', '*']).length - 2 = stem.length := by
    rw [length_append]
    rfl
  unfold pathMatches
  dsimp only
  rw [if_pos (suffix_append _ _), hlen, take_left, decide_eq_true_iff]

section

variable {parse : String → Option NetworkUrl}

theorem hostMatches_iff_of_literal (hparse : UrlParsing parse) {p r : NetworkUrl} {s t : String}
    (hp : parse s = some p) (hr : parse t = some r)
    (hweb : p.scheme = "http" ∨ p.scheme = "https") (hscheme : p.scheme = r.scheme)
    (hliteral : ∀ h, p.host = some h → '*' ∉ h.toList ∧ ¬starSentinel <:+: h.toList) :
    hostMatches (p.host.map restoreStars) (r.host.map String.toList) = true ↔
      p.host = r.host := by
  rcases hph : p.host with _ | h
  · rcases hrh : r.host with _ | g
    · exact iff_of_true rfl rfl
    · exact iff_of_false Bool.false_ne_true (by rintro ⟨⟩)
  · rcases hrh : r.host with _ | g
    · exact iff_of_false Bool.false_ne_true (by rintro ⟨⟩)
    · have hlowerp := hparse.host_lower s p h hp hweb hph
      have hlowerr := hparse.host_lower t r g hr (hscheme ▸ hweb) hrh
      obtain ⟨hstar, hsentinel⟩ := hliteral h hph
      have hmatches : hostMatches ((some h).map restoreStars) ((some g).map String.toList) =
          hostPatternMatches (restoreStars h) g.toList := rfl
      rw [hmatches, restoreStars_of_literal hstar hsentinel,
        hostPatternMatches_iff_of_literal hstar hlowerp, hlowerr, Option.some.injEq,
        String.toList_inj]

theorem Address.replaceChar_pattern (a : Address) :
    String.ofList (replaceChar '*' starSentinel a.pattern.toList) =
      a.write (replaceChar '*' starSentinel (a.path ++ ['/', '*'])) := by
  have happend : ∀ s t : List Char, replaceChar '*' starSentinel (s ++ t) =
      replaceChar '*' starSentinel s ++ replaceChar '*' starSentinel t :=
    fun s t ↦ flatMap_append
  have hscheme : '*' ∉ a.scheme.toList := by
    rcases a.scheme_web with h | h <;> rw [h] <;> decide
  have hhost : '*' ∉ a.host := fun h ↦ (a.host_literal.2 _ h).2 mem_cons_self
  rw [pattern, write, String.toList_ofList, happend, happend, happend,
    replaceChar_of_not_mem hscheme, replaceChar_of_not_mem hhost,
    replaceChar_of_not_mem (by decide), write]

/-- What a pattern below a literal address matches: the scheme, the host and the folder. -/
theorem urlPatternMatches_iff_of_literal (hparse : UrlParsing parse) {a : Address}
    (hliteral : a.Literal parse) {url : String} :
    urlPatternMatches (fun s ↦ (parse s).map NetworkUrl.forGrants) a.pattern url = true ↔
      ∃ p q r stem, parse a.pattern = some p ∧ parse a.entry = some q ∧ parse url = some r ∧
        q.scheme = r.scheme ∧ q.host = r.host ∧
        (p.path.toList = stem ++ ['/', '*'] ∧
          (q.path.toList = stem ∨ q.path.toList = stem ++ ['/'])) ∧
        (r.path.toList = stem ∨ stem ++ ['/'] <+: r.path.toList) := by
  unfold urlPatternMatches
  rw [a.replaceChar_pattern]
  dsimp only
  rw [hparse.star a]
  rcases hp : parse a.pattern with _ | p
  · exact iff_of_false Bool.false_ne_true (by rintro ⟨_, _, _, _, ⟨⟩, _⟩)
  obtain ⟨q, stem, hq, ⟨hscheme, hhost, -⟩, hstem, hentry⟩ := hparse.segment a p hp
  rcases hr : parse url with _ | r
  · exact iff_of_false Bool.false_ne_true (by rintro ⟨_, _, _, _, _, _, ⟨⟩, _⟩)
  have hweb : q.scheme = "http" ∨ q.scheme = "https" := hparse.scheme a q hq ▸ a.scheme_web
  have hpath : pathMatches (restoreStars (String.ofList
      (replaceChar '*' starSentinel p.path.toList))) r.path.toList = true ↔
        r.path.toList = stem ∨ stem ++ ['/'] <+: r.path.toList := by
    rw [restoreStars_replaceChar (hliteral p hp).2, hstem, pathMatches_below_iff]
  change (decide (p.scheme = r.scheme) && hostMatches (p.host.map restoreStars)
    (r.host.map String.toList) && pathMatches (restoreStars (String.ofList
      (replaceChar '*' starSentinel p.path.toList))) r.path.toList) = true ↔ _
  rw [Bool.and_eq_true, Bool.and_eq_true, decide_eq_true_iff, hpath]
  constructor
  · rintro ⟨⟨hs, hh⟩, hbelow⟩
    rw [hostMatches_iff_of_literal hparse hp hr (hscheme ▸ hweb) hs (hliteral p hp).1] at hh
    exact ⟨p, q, r, stem, rfl, hq, rfl, hscheme ▸ hs, hhost ▸ hh, ⟨hstem, hentry⟩, hbelow⟩
  · rintro ⟨_, _, _, stem', ⟨⟩, hq', ⟨⟩, hs, hh, ⟨hstem', -⟩, hbelow⟩
    rw [hq] at hq'
    cases hq'
    rw [hstem] at hstem'
    obtain rfl := append_cancel_right hstem'
    rw [hostMatches_iff_of_literal hparse hp hr (hscheme ▸ hweb) (hscheme ▸ hs) (hliteral p hp).1]
    exact ⟨⟨hscheme ▸ hs, hhost ▸ hh⟩, hbelow⟩

theorem urlPathCovers_iff_of_below {stem entry path : List Char}
    (hentry : entry = stem ∨ entry = stem ++ ['/'])
    (hbelow : path = stem ∨ stem ++ ['/'] <+: path) :
    urlPathCovers entry path = true ↔
      hasEncodedSeparator (path.drop stem.length) = false ∧ (entry = stem ∨ path ≠ stem) := by
  have hslash : ∀ s, hasEncodedSeparator ('/' :: s) = hasEncodedSeparator s := by
    intro s
    rw [hasEncodedSeparator_cons]
    rcases s with _ | ⟨b, _ | ⟨c, s⟩⟩ <;> rfl
  rw [urlPathCovers_iff]
  rcases hbelow with rfl | ⟨rest, rfl⟩
  · rw [drop_length]
    constructor
    · rintro ⟨s, hs, -⟩
      refine ⟨rfl, hentry.imp_right fun hentry _ ↦ ?_⟩
      rw [hentry, append_assoc] at hs
      exact cons_ne_nil _ _ (append_right_eq_self.mp hs.symm)
    · rintro ⟨-, h⟩
      have heq := h.resolve_right (not_not_intro rfl)
      exact ⟨[], by rw [heq, append_nil], .inr (.inl rfl), rfl⟩
  · have hne : stem ++ ['/'] ++ rest ≠ stem := by
      intro heq
      rw [append_assoc] at heq
      exact cons_ne_nil _ _ (append_right_eq_self.mp heq)
    rw [and_iff_left (.inr hne), append_assoc, drop_left, singleton_append, hslash]
    rcases hentry with rfl | rfl
    · constructor
      · rintro ⟨s, hs, -, hsep⟩
        rw [append_cancel_left_eq] at hs
        rwa [← hslash, hs]
      · intro h
        exact ⟨'/' :: rest, rfl, .inr (.inr rfl), (hslash rest).trans h⟩
    · constructor
      · rintro ⟨s, hs, -, hsep⟩
        rw [append_assoc, append_cancel_left_eq, singleton_append] at hs
        rwa [(cons.inj hs).2]
      · intro h
        exact ⟨rest, by rw [append_assoc]; rfl, .inl List.getLast?_concat, h⟩

/-- **Grants of URLs and entries of allowlists.** What a grant of everything below a literal address
matches is admitted by an allowlist with that address if and only if it has the port of the address
and goes on without encoded separators, not counting the bare folder below a dot segment. -/
theorem urlPatternMatches_within_entry_iff (hparse : UrlParsing parse) (a : Address)
    (hliteral : a.Literal parse) (url : String) :
    (urlPatternMatches (fun s ↦ (parse s).map NetworkUrl.forGrants) a.pattern url = true →
      (Allowlist.only {a.entry}).allowsNetworkUrl parse url = true) ↔ a.AgreesOn parse url := by
  rw [urlPatternMatches_iff_of_literal hparse hliteral]
  have hadmits : (Allowlist.only {a.entry}).allowsNetworkUrl parse url = true ↔
      ∃ q r, parse a.entry = some q ∧ parse url = some r ∧
        (q.scheme = r.scheme ∧ q.host = r.host ∧ q.portOrKnownDefault = r.portOrKnownDefault) ∧
        urlPathCovers q.path.toList r.path.toList = true := by
    rw [Allowlist.allowsNetworkUrl_only]
    constructor
    · rintro ⟨e, he, r, hr, hcovers⟩
      rw [Finset.mem_singleton.mp he, urlCovers_iff] at hcovers
      obtain ⟨q, hq, horigin, hpath⟩ := hcovers
      exact ⟨q, r, hq, hr, horigin, hpath⟩
    · rintro ⟨q, r, hq, hr, horigin, hpath⟩
      exact ⟨a.entry, Finset.mem_singleton_self _, r, hr, urlCovers_iff.mpr ⟨q, hq, horigin, hpath⟩⟩
  rw [hadmits]
  constructor
  · intro h p q r stem hp hq hr hstem hscheme hhost hbelow
    have hentry : q.path.toList = stem ∨ q.path.toList = stem ++ ['/'] := by
      obtain ⟨q', stem', hq', -, hstem', hentry⟩ := hparse.segment a p hp
      rw [hq] at hq'
      cases hq'
      rw [hstem] at hstem'
      obtain rfl := append_cancel_right hstem'
      exact hentry
    obtain ⟨q', r', hq', hr', ⟨-, -, hport⟩, hcovers⟩ :=
      h ⟨p, q, r, stem, hp, hq, hr, hscheme, hhost, ⟨hstem, hentry⟩, hbelow⟩
    rw [hq] at hq'
    rw [hr] at hr'
    cases hq'
    cases hr'
    exact ⟨hport, (urlPathCovers_iff_of_below hentry hbelow).mp hcovers⟩
  · rintro h ⟨p, q, r, stem, hp, hq, hr, hscheme, hhost, ⟨hstem, hentry⟩, hbelow⟩
    obtain ⟨hport, hrest⟩ := h p q r stem hp hq hr hstem hscheme hhost hbelow
    exact ⟨q, r, hq, hr, ⟨hscheme, hhost, hport⟩,
      (urlPathCovers_iff_of_below hentry hbelow).mpr hrest⟩

end

/-! ## A plain parser -/

def schemeEnd : List Char := [':', '/', '/']

def plainParse (s : String) : Option NetworkUrl :=
  match splitOnce schemeEnd s.toList with
  | none => none
  | some (scheme, rest) =>
    let authority := asciiLower (rest.takeWhile (· ≠ '/'))
    let port := authority.dropWhile (· ≠ ':')
    let path := rest.dropWhile (· ≠ '/')
    some
      { scheme := String.ofList scheme
        host := some (String.ofList (authority.takeWhile (· ≠ ':')))
        portOrKnownDefault :=
          if port = [] then some (if scheme = "http".toList then 80 else 443)
          else some ((port.drop 1).foldl (fun n c ↦ 10 * n + (c.toNat - '0'.toNat)) 0)
        path := String.ofList (if path = [] then ['/'] else path) }

/-- What the parser makes of an address with some path. -/
theorem plainParse_write (a : Address) {path : List Char}
    (hpath : path = [] ∨ path.head? = some '/') :
    ∃ host port, plainParse (a.write path) = some ⟨a.scheme, host, port,
      String.ofList (if path = [] then ['/'] else path)⟩ ∧
      ∀ path', path' = [] ∨ path'.head? = some '/' →
        plainParse (a.write path') = some ⟨a.scheme, host, port,
          String.ofList (if path' = [] then ['/'] else path')⟩ := by
  have hsplit : ∀ path, splitOnce schemeEnd (a.write path).toList =
      some (a.scheme.toList, a.host ++ path) := by
    intro path
    have hfirst : splitOnce schemeEnd (a.scheme.toList ++ schemeEnd ++ []) =
        some (a.scheme.toList, []) := by
      rcases a.scheme_web with h | h <;> rw [h] <;> decide
    rw [Address.write, String.toList_ofList, append_assoc]
    exact splitOnce_append hfirst (a.host ++ path)
  have hslash : ∀ c ∈ a.host, decide (c ≠ '/') = true := by
    intro c hc
    refine decide_eq_true fun heq ↦ (a.host_literal.2 c hc).2 ?_
    rw [heq]
    decide
  have hall : ∀ path, path = [] ∨ path.head? = some '/' →
      (a.host ++ path).takeWhile (· ≠ '/') = a.host ∧
        (a.host ++ path).dropWhile (· ≠ '/') = path := by
    intro path hpath
    rw [takeWhile_append_of_pos hslash, dropWhile_append_of_pos hslash]
    rcases hpath with rfl | hpath
    · exact ⟨append_nil _, rfl⟩
    · obtain ⟨rest, rfl⟩ := List.head?_eq_some_iff.mp hpath
      exact ⟨append_nil _, rfl⟩
  have hparse : ∀ path, path = [] ∨ path.head? = some '/' → plainParse (a.write path) =
      some ⟨a.scheme, some (String.ofList ((asciiLower a.host).takeWhile (· ≠ ':'))),
        if (asciiLower a.host).dropWhile (· ≠ ':') = [] then
          some (if a.scheme.toList = "http".toList then 80 else 443)
        else some ((((asciiLower a.host).dropWhile (· ≠ ':')).drop 1).foldl
          (fun n c ↦ 10 * n + (c.toNat - '0'.toNat)) 0),
        String.ofList (if path = [] then ['/'] else path)⟩ := by
    intro path hpath
    rw [plainParse, hsplit]
    dsimp only
    rw [(hall path hpath).1, (hall path hpath).2, String.ofList_toList]
  exact ⟨_, _, hparse path hpath, hparse⟩

theorem head?_below (a : Address) : (a.path ++ ['/', '*']).head? = some '/' := by
  rcases a.path_absolute with h | h
  · rw [h]
    rfl
  · obtain ⟨rest, hrest⟩ := List.head?_eq_some_iff.mp h
    rw [hrest]
    rfl

theorem plainParse_parsing : UrlParsing plainParse where
  scheme a p hp := by
    obtain ⟨host, port, hparse, -⟩ := plainParse_write a a.path_absolute
    rw [Address.entry, hparse] at hp
    cases hp
    rfl
  host_lower s p h hp _ hh := by
    unfold plainParse at hp
    split at hp
    · cases hp
    · cases hp
      cases hh
      rw [String.toList_ofList]
      have hpiece : ∀ s : List Char, asciiLower ((asciiLower s).takeWhile (· ≠ ':')) =
          (asciiLower s).takeWhile (· ≠ ':') := by
        intro s
        have hall := takeWhile_prefix (fun c : Char ↦ decide (c ≠ ':')) (l := asciiLower s)
        obtain ⟨rest, hrest⟩ := hall
        have hlower := asciiLower_asciiLower s
        rw [← hrest, asciiLower, map_append] at hlower
        exact (append_inj hlower (length_map _)).1
      exact hpiece _
  segment a p hp := by
    obtain ⟨host, port, hentry, hall⟩ := plainParse_write a a.path_absolute
    rw [Address.pattern, hall _ (.inr (head?_below a)), if_neg (by simp)] at hp
    cases hp
    refine ⟨_, a.path, hentry, ⟨rfl, rfl, rfl⟩, String.toList_ofList, ?_⟩
    dsimp only
    rw [String.toList_ofList]
    split
    · rename_i hnil
      exact .inr (by rw [hnil]; rfl)
    · exact .inl rfl
  star a := by
    obtain ⟨host, port, -, hall⟩ := plainParse_write a a.path_absolute
    have hslash : (replaceChar '*' starSentinel (a.path ++ ['/', '*'])).head? = some '/' := by
      obtain ⟨rest, hrest⟩ := List.head?_eq_some_iff.mp (head?_below a)
      rw [hrest]
      rfl
    have hne : ∀ s : List Char, s.head? = some '/' → s ≠ [] := by
      rintro _ h rfl
      cases h
    rw [Address.pattern, hall _ (.inr (head?_below a)), hall _ (.inr hslash),
      if_neg (hne _ hslash), if_neg (hne _ (head?_below a)), Option.map_some, String.toList_ofList]

/-- The root of a host. -/
def sampleAddress : Address where
  scheme := "https"
  host := "a.com".toList
  path := []
  scheme_web := .inr rfl
  host_literal := by decide
  path_absolute := .inl rfl
  path_literal := by decide

theorem sampleAddress_literal : sampleAddress.Literal plainParse := by
  have hp : plainParse sampleAddress.pattern =
      some ⟨"https", some "a.com", some 443, "/*"⟩ := by decide +kernel
  intro p h
  rw [hp] at h
  cases h
  exact ⟨by rintro _ ⟨⟩; decide +kernel, by decide +kernel⟩

theorem urlPatternMatches_within_entry_sample :
    (urlPatternMatches (fun s ↦ (plainParse s).map NetworkUrl.forGrants) sampleAddress.pattern
        "https://a.com:8443/x" = true →
      (Allowlist.only {sampleAddress.entry}).allowsNetworkUrl plainParse "https://a.com:8443/x" =
        true) ↔ sampleAddress.AgreesOn plainParse "https://a.com:8443/x" :=
  urlPatternMatches_within_entry_iff plainParse_parsing sampleAddress sampleAddress_literal _

/-- A grant for a host admits its other ports, an allowlist with the same host does not. -/
theorem urlPatternMatches_other_port :
    ∃ parse, UrlParsing parse ∧ ∃ a : Address, a.Literal parse ∧
      a.pattern = "https://a.com/*" ∧ a.entry = "https://a.com" ∧
      urlPatternMatches (fun s ↦ (parse s).map NetworkUrl.forGrants) a.pattern
        "https://a.com:8443/x" = true ∧
      (Allowlist.only {a.entry}).allowsNetworkUrl parse "https://a.com:8443/x" = false :=
  ⟨plainParse, plainParse_parsing, sampleAddress, sampleAddress_literal, by decide +kernel,
    by decide +kernel, by decide +kernel, by decide +kernel⟩

end WaferRun
