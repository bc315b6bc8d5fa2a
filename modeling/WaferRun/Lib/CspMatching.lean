import Mathlib
import WaferRun.Lib.Csp

/-!
# The URLs that a list of sources admits

A source admits a URL by two separate tests (`Admits`). The scheme, the host and the port are
compared with those of the URL and of the page, and case does not count there (`MatchesOrigin`). The
path is compared piece by piece after percent-decoding, and case does count (`PathMatches`). A path
that ends in a slash admits everything below it.

A list stays within another one if it admits no URL that the other does not. As the path of a source
is itself a path that the source admits, this can be decided without the paths of URLs: whatever
origin a source of the list matches, some source of the other list matches it with a path that
matches the path of the first (`within_iff`).

The decoding of a piece is a parameter.
-/

open List

namespace Csp

open Text

/-! ## Origins -/

inductive UrlHost
  | domain (name : List Char)
  | address (text : List Char)
deriving DecidableEq, Repr

structure Origin where
  scheme : List Char
  host : Option UrlHost
  /-- The port, unless it is the default one of the scheme. -/
  port : Option ℕ
deriving DecidableEq, Repr

/-- A URL. The path of one without a host can be any text. -/
structure Url where
  origin : Origin
  path : List Char
  rooted : origin.host ≠ none → IsPath path

def schemeMatches (part scheme : List Char) : Bool :=
  let a := asciiLower part
  let b := asciiLower scheme
  a = b || a = "http".toList && b = "https".toList ||
    a = "ws".toList && b ∈ ["wss".toList, "http".toList, "https".toList] ||
    a = "wss".toList && b = "https".toList

def hostMatches (part : List Char) : UrlHost → Bool
  | .address _ => false
  | .domain name =>
    if part = ['*'] then true
    else if "*.".toList <+: part then asciiLower part.tail <:+ asciiLower name
    else eqIgnoreAsciiCase part name

def defaultPort (scheme : List Char) : Option ℕ :=
  if scheme ∈ ["http".toList, "ws".toList] then some 80
  else if scheme ∈ ["https".toList, "wss".toList] then some 443
  else if scheme = "ftp".toList then some 21
  else none

def portMatches (part : Option (List Char)) (o : Origin) : Bool :=
  let number := part.map fun digits ↦ Nat.ofDigitChars 10 digits 0
  part = some ['*'] || number = o.port || o.port = none && number = defaultPort o.scheme

def selfMatches (page o : Origin) : Bool :=
  page.host ≠ none && page.host = o.host && page.port = o.port &&
    (page.scheme = o.scheme || o.scheme ∈ ["https".toList, "wss".toList] ||
      page.scheme = "http".toList && o.scheme = "ws".toList)

/-- The source `*` matches the page's own scheme and those of the network. -/
def anyMatches (page o : Origin) : Bool :=
  o.scheme ∈ ["http".toList, "https".toList] || o.scheme = page.scheme

namespace SourceExpression

def MatchesOrigin (page o : Origin) : SourceExpression → Prop
  | quoted inner => inner = "self".toList ∧ selfMatches page o = true
  | scheme s => schemeMatches s o.scheme = true
  | host s h port path =>
    (s = none ∧ h = ['*'] ∧ port = none ∧ path = [] ∧ anyMatches page o = true) ∨
      schemeMatches (s.getD page.scheme) o.scheme = true ∧
        (∃ u, o.host = some u ∧ hostMatches h u = true) ∧ portMatches port o = true

instance (page o : Origin) (e : SourceExpression) : Decidable (e.MatchesOrigin page o) := by
  cases e <;> unfold MatchesOrigin <;> infer_instance

def path : SourceExpression → List Char
  | host _ _ _ path => path
  | _ => []

theorem MatchesOrigin.host_ne_none {page o : Origin} {e : SourceExpression}
    (h : e.MatchesOrigin page o) (hpath : e.path ≠ []) : o.host ≠ none := by
  rcases e with inner | s | ⟨s, host, port, path⟩
  · exact absurd rfl hpath
  · exact absurd rfl hpath
  · rcases h with ⟨-, -, -, hnil, -⟩ | ⟨-, ⟨u, hu, -⟩, -⟩
    · exact absurd hnil hpath
    · exact fun hnone ↦ nomatch hu.symm.trans hnone

end SourceExpression

/-! ## Paths -/

section

variable {α : Type*} (decode : List Char → α)

def pathPieces (path : List Char) : List α := (path.splitOn '/').map decode

def PathMatches (pattern path : List Char) : Prop :=
  pattern = [] ∨ pattern = ['/'] ∧ path = [] ∨
    if pattern.getLast? = some '/' then
      (pathPieces decode pattern).length ≤ (pathPieces decode path).length ∧
        (pathPieces decode pattern).dropLast <+: pathPieces decode path
    else pathPieces decode pattern = pathPieces decode path

instance [DecidableEq α] (pattern path : List Char) :
    Decidable (PathMatches decode pattern path) := by
  unfold PathMatches
  infer_instance

theorem pathPieces_append_slash (s : List Char) :
    pathPieces decode (s ++ ['/']) = pathPieces decode s ++ [decode []] := by
  rw [pathPieces, splitOn_append_cons_self, map_append]
  rfl

theorem pathPieces_ne_nil (s : List Char) : pathPieces decode s ≠ [] :=
  fun h ↦ splitOn_ne_nil '/' s (map_eq_nil_iff.mp h)

theorem eq_append_slash_or (s : List Char) :
    (∃ t, s = t ++ ['/']) ∨ s.getLast? ≠ some '/' := by
  by_cases h : s.getLast? = some '/'
  · exact .inl (List.getLast?_eq_some_iff.mp h)
  · exact .inr h

theorem getLast?_append_slash (s : List Char) : (s ++ ['/']).getLast? = some '/' :=
  List.getLast?_concat

variable {decode}

theorem pathMatches_append_slash {s path : List Char} :
    PathMatches decode (s ++ ['/']) path ↔ s = [] ∧ path = [] ∨
      (pathPieces decode s).length < (pathPieces decode path).length ∧
        pathPieces decode s <+: pathPieces decode path := by
  have hnil : s ++ ['/'] ≠ [] := append_ne_nil_of_right_ne_nil s (cons_ne_nil _ _)
  have hsingle : s ++ ['/'] = ['/'] ↔ s = [] := append_left_eq_self
  rw [PathMatches, if_pos (getLast?_append_slash s), pathPieces_append_slash, dropLast_concat,
    length_append, length_singleton, Nat.succ_le_iff, hsingle]
  exact ⟨fun h ↦ h.resolve_left hnil, .inr⟩

theorem pathMatches_of_getLast?_ne {s path : List Char} (hnil : s ≠ [])
    (h : s.getLast? ≠ some '/') :
    PathMatches decode s path ↔ pathPieces decode s = pathPieces decode path := by
  rw [PathMatches, if_neg h]
  refine ⟨fun h' ↦ ?_, fun h' ↦ .inr (.inr h')⟩
  rcases h' with h' | ⟨rfl, -⟩ | h'
  · exact absurd h' hnil
  · exact absurd rfl h
  · exact h'

theorem pathMatches_self (s : List Char) : PathMatches decode s s := by
  rcases eq_append_slash_or s with ⟨t, rfl⟩ | h
  · refine pathMatches_append_slash.mpr (.inr ?_)
    rw [pathPieces_append_slash, length_append, length_singleton]
    exact ⟨Nat.lt_succ_self _, prefix_append _ _⟩
  · by_cases hnil : s = []
    · exact .inl hnil
    · exact (pathMatches_of_getLast?_ne hnil h).mpr rfl

theorem exists_splitOn_concat {c : Char} (hc : c ≠ '/') (s : List Char) :
    ∃ l piece, (s ++ [c]).splitOn '/' = l ++ [piece ++ [c]] := by
  induction s with
  | nil => exact ⟨[], [], splitOn_eq_singleton (by simpa using hc.symm)⟩
  | cons d s ih =>
    obtain ⟨l, piece, heq⟩ := ih
    rw [cons_append, splitOn_cons_eq_if_modifyHead, heq]
    split
    · exact ⟨[] :: l, piece, rfl⟩
    · rcases l with _ | ⟨first, l⟩
      · exact ⟨[], d :: piece, rfl⟩
      · exact ⟨(d :: first) :: l, piece, rfl⟩

theorem pathPieces_ne_append (hdecode : ∀ s, decode s = decode [] → s = []) {s : List Char}
    (hnil : s ≠ []) (h : s.getLast? ≠ some '/') (l : List α) :
    pathPieces decode s ≠ l ++ [decode []] := by
  obtain ⟨t, c, rfl⟩ := (List.eq_nil_or_concat' s).resolve_left hnil
  have hc : c ≠ '/' := fun heq ↦ h (heq ▸ List.getLast?_concat)
  obtain ⟨l', piece, hsplit⟩ := exists_splitOn_concat hc t
  rw [pathPieces, hsplit, map_append, map_singleton]
  intro heq
  have hlast := hdecode _ (List.append_inj_right' heq rfl |> cons.inj).1
  exact append_ne_nil_of_right_ne_nil piece (cons_ne_nil c []) hlast

theorem pathPieces_nil : pathPieces decode [] = [decode []] := rfl

theorem pathPieces_slash (s : List Char) :
    pathPieces decode ('/' :: s) = decode [] :: pathPieces decode s := by
  rw [pathPieces, splitOn_cons_eq_if_modifyHead, if_pos (by decide)]
  rfl

theorem eq_nil_of_pathPieces (hdecode : ∀ s, decode s = decode [] → s = []) {s : List Char}
    (h : pathPieces decode s = [decode []]) : s = [] := by
  by_contra hnil
  rcases eq_append_slash_or s with ⟨t, rfl⟩ | hlast
  · rw [pathPieces_append_slash] at h
    have hlength := congrArg List.length h
    rw [length_append, length_singleton, Nat.add_eq_right, length_eq_zero_iff]
      at hlength
    exact pathPieces_ne_nil decode t hlength
  · exact pathPieces_ne_append hdecode hnil hlast [] h

theorem PathMatches.below (hdecode : ∀ s, decode s = decode [] → s = []) {s p u : List Char}
    (hlt : (pathPieces decode s).length < (pathPieces decode p).length)
    (hpre : pathPieces decode s <+: pathPieces decode p) (hpu : PathMatches decode p u) :
    PathMatches decode (s ++ ['/']) u := by
  rw [pathMatches_append_slash]
  have hpos := length_pos_of_ne_nil (pathPieces_ne_nil decode s)
  rcases eq_append_slash_or p with ⟨t, rfl⟩ | hp
  · rw [pathPieces_append_slash] at hlt hpre
    rw [length_append, length_singleton] at hlt
    rcases pathMatches_append_slash.mp hpu with ⟨rfl, rfl⟩ | ⟨hlt', hpre'⟩
    · -- the pattern is a lone slash, and so is the folder
      rw [pathPieces_nil, length_singleton] at hlt
      have hone : pathPieces decode s = [decode []] :=
        (prefix_of_prefix_length_le hpre (prefix_append [decode []] _)
          (by rw [length_singleton]; omega)).eq_of_length (by rw [length_singleton]; omega)
      exact .inl ⟨eq_nil_of_pathPieces hdecode hone, rfl⟩
    · have hst : pathPieces decode s <+: pathPieces decode t :=
        prefix_of_prefix_length_le hpre (prefix_append _ _) (by omega)
      exact .inr ⟨by omega, hst.trans hpre'⟩
  · by_cases hnil : p = []
    · rw [hnil, pathPieces_nil, length_singleton] at hlt
      omega
    · rw [pathMatches_of_getLast?_ne hnil hp] at hpu
      exact .inr (hpu ▸ ⟨hlt, hpre⟩)

theorem PathMatches.trans (hdecode : ∀ s, decode s = decode [] → s = []) {a p u : List Char}
    (hap : PathMatches decode a p) (hpu : PathMatches decode p u) (hu : a ≠ [] → IsPath u) :
    PathMatches decode a u := by
  by_cases hanil : a = []
  · exact .inl hanil
  rcases eq_append_slash_or a with ⟨s, rfl⟩ | ha
  · rcases pathMatches_append_slash.mp hap with ⟨rfl, rfl⟩ | ⟨hlt, hpre⟩
    · refine pathMatches_append_slash.mpr ?_
      rcases hu hanil with rfl | ⟨t, rfl⟩
      · exact .inl ⟨rfl, rfl⟩
      · rw [pathPieces_slash, pathPieces_nil]
        exact .inr ⟨by simpa using length_pos_of_ne_nil (pathPieces_ne_nil decode t),
          prefix_append [decode []] (pathPieces decode t)⟩
    · exact hpu.below hdecode hlt hpre
  · rw [pathMatches_of_getLast?_ne hanil ha] at hap ⊢
    rcases eq_append_slash_or p with ⟨t, rfl⟩ | hp
    · rw [pathPieces_append_slash] at hap
      exact absurd hap (pathPieces_ne_append hdecode hanil ha _)
    · by_cases hnil : p = []
      · rw [hnil] at hap
        exact absurd hap (pathPieces_ne_append hdecode hanil ha [])
      · exact hap.trans ((pathMatches_of_getLast?_ne hnil hp).mp hpu)

end

/-! ## Lists of sources -/

section

variable {α : Type*} (decode : List Char → α)

/-- The path of a source in the case in which it is written, when the source reads as `e`. -/
def pathOf (source : List Char) (e : SourceExpression) : List Char :=
  source.drop (source.length - e.path.length)

def SourceAdmits (page : Origin) (source : List Char) (u : Url) : Prop :=
  ∃ e, SourceExpression.Reads source e ∧ e.MatchesOrigin page u.origin ∧
    PathMatches decode (pathOf source e) u.path

def Admits (page : Origin) (sources : List (List Char)) (u : Url) : Prop :=
  ∃ source ∈ sources, SourceAdmits decode page source u

def Within (sources others : List (List Char)) : Prop :=
  ∀ page u, Admits decode page sources u → Admits decode page others u

/-- Whatever origin the source matches, one of the others matches it with a path that matches the
path of the source. -/
def CoveredBy (others : List (List Char)) (source : List Char) : Prop :=
  ∀ e, SourceExpression.Reads source e → ∀ page o, e.MatchesOrigin page o →
    ∃ other ∈ others, ∃ f, SourceExpression.Reads other f ∧ f.MatchesOrigin page o ∧
      PathMatches decode (pathOf other f) (pathOf source e)

theorem SourceExpression.exists_text_eq (e : SourceExpression) : ∃ s, e.text = s ++ e.path := by
  rcases e with inner | s | ⟨_ | s, h, _ | port, path⟩
  · exact ⟨_, (append_nil _).symm⟩
  · exact ⟨_, (append_nil _).symm⟩
  · exact ⟨h, rfl⟩
  · exact ⟨h ++ ':' :: port, by simp [text, portText, SourceExpression.path]⟩
  · exact ⟨s ++ (':' :: '/' :: '/' :: h), by simp [text, portText, SourceExpression.path]⟩
  · exact ⟨s ++ (':' :: '/' :: '/' :: (h ++ ':' :: port)),
      by simp [text, portText, SourceExpression.path]⟩

theorem SourceExpression.Valid.isPath {e : SourceExpression} (h : e.Valid) : IsPath e.path := by
  rcases h with inner | hs | ⟨-, -, -, hpath⟩
  · exact .inl rfl
  · exact .inl rfl
  · exact hpath

theorem asciiLower_pathOf {source : List Char} {e : SourceExpression}
    (h : SourceExpression.Reads source e) : asciiLower (pathOf source e) = e.path := by
  obtain ⟨s, hs⟩ := e.exists_text_eq
  have htext : asciiLower source = s ++ e.path := h.2.symm.trans hs
  have hlength : source.length = s.length + e.path.length := by
    rw [← length_append, ← htext, asciiLower, length_map]
  rw [pathOf, asciiLower, map_drop, ← asciiLower, htext, hlength, Nat.add_sub_cancel,
    drop_left]

theorem isPath_pathOf {source : List Char} {e : SourceExpression}
    (h : SourceExpression.Reads source e) : IsPath (pathOf source e) := by
  have hlower := asciiLower_pathOf h
  rcases hpath : pathOf source e with _ | ⟨c, t⟩
  · exact .inl rfl
  · rw [hpath] at hlower
    rcases h.1.isPath with hnil | ⟨t', hcons⟩
    · exact absurd (hlower.trans hnil) (cons_ne_nil _ _)
    · have hc : c.toLower = '/' := (cons.inj (hlower.trans hcons)).1
      exact .inr ⟨t, by rw [(toLower_eq_iff (by decide)).mp hc]⟩

variable {decode}

/-- **A list stays within another one exactly if each of its sources is covered.** -/
theorem within_iff (hdecode : ∀ s, decode s = decode [] → s = []) {sources others : List (List Char)} :
    Within decode sources others ↔ ∀ source ∈ sources, CoveredBy decode others source := by
  constructor
  · intro h source hsource e he page o ho
    -- the path of the source is one that the source admits
    let u : Url := ⟨o, pathOf source e, fun _ ↦ isPath_pathOf he⟩
    exact h page u ⟨source, hsource, e, he, ho, pathMatches_self _⟩
  · rintro h page u ⟨source, hsource, e, he, ho, hpath⟩
    obtain ⟨other, hother, f, hf, hfo, hcover⟩ := h source hsource e he page u.origin ho
    refine ⟨other, hother, f, hf, hfo, hcover.trans hdecode hpath fun hne ↦ u.rooted ?_⟩
    refine hfo.host_ne_none fun hnil ↦ hne ?_
    have hlower := asciiLower_pathOf hf
    rw [hnil] at hlower
    exact map_eq_nil_iff.mp hlower

end

end Csp
