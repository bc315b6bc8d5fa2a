import Mathlib.Data.Char
import Mathlib.Data.List.AList
import Mathlib.Data.List.DropRight
import Mathlib.Data.List.Lex
import Mathlib.Data.List.Sort
import WaferRun.Lib.Csp

/-!
# Merging an operator's policy into the baseline

An operator may add directives and sources to the content security policy of a site, within limits
(`mergeCsp`). The policy is read into a map from lower-case directive names to sources, each
directive of the operator is merged into it by the rule of its name, and the map is written out in
the order of the names. What is refused on the way is reported.

Which sources a script directive takes is decided by `scriptSourceRefusal`. It reads an unquoted
source by hand into one of four classes (`parseSource`), and takes it if it is one host named in
full, over `https` or without a scheme.

The answer of the URL parser to a `report-uri` value is a parameter (`sameOrigin`): whether the
value, joined to `https://origin.invalid/`, stays on that origin.
-/

namespace WaferRun.SecurityHeaders

open Text

abbrev Word := List Char

def scriptDirectives : List Word :=
  ["default-src".toList, "script-src".toList, "script-src-elem".toList, "script-src-attr".toList,
    "worker-src".toList, "child-src".toList]

def narrowOnlyDirectives : List Word := ["base-uri".toList, "form-action".toList]

def frameAncestorsDirective : Word := "frame-ancestors".toList

def reportUriDirective : Word := "report-uri".toList

def reportToDirective : Word := "report-to".toList

def noneSource : Word := "'none'".toList

def selfSource : Word := "'self'".toList

structure Refusal where
  directive : Word
  source : Option Word
  reason : String
deriving DecidableEq, Repr

/-- The policy to send, and what was refused on the way. -/
structure CspMerge where
  policy : List Char
  refused : List Refusal

abbrev Directives := AList fun _ : Word ↦ List Word

def Directives.inOrder (ds : Directives) : List Csp.Directive :=
  (ds.entries.map fun entry ↦ ⟨entry.1, entry.2⟩).insertionSort fun d e ↦ d.name ≤ e.name

/-! ## Source expressions -/

inductive Host
  | any
  | subdomains
  | exact
deriving DecidableEq, Repr

inductive Source
  | wildcard
  | scheme
  | host (scheme : Option Word) (host : Host)
  | invalid
deriving DecidableEq, Repr

def isScheme : Word → Bool
  | [] => false
  | c :: s => c.isAlpha && s.all fun d ↦ d.isAlphanum || d = '+' || d = '-' || d = '.'

def isHostLabels (s : Word) : Bool :=
  s ≠ [] && (s.splitOn '.').all fun label ↦
    label ≠ [] && label.all fun c ↦ c.isAlphanum || c = '-'

def parseHost (host : Word) : Option Host :=
  if host = ['*'] then some .any
  else
    match host.dropPrefix? "*.".toList with
    | some suffix => if isHostLabels suffix then some .subdomains else none
    | none => if isHostLabels host then some .exact else none

def parsePort : Word → Option Word
  | ':' :: portAndPath =>
    let port := portAndPath.takeWhile (· ≠ '/')
    if port ≠ ['*'] && (port = [] || !port.all Char.isDigit) then none
    else some (portAndPath.dropWhile (· ≠ '/'))
  | afterHost => some afterHost

def parseHostSource (scheme : Option Word) (rest : Word) : Source :=
  match parsePort (rest.dropWhile fun c ↦ c ≠ ':' && c ≠ '/') with
  | none => .invalid
  | some path =>
    if path = [] || path.head? = some '/' then
      match parseHost (rest.takeWhile fun c ↦ c ≠ ':' && c ≠ '/') with
      | some host => .host scheme host
      | none => .invalid
    else .invalid

def parseSource (s : Word) : Source :=
  if s = ['*'] then .wildcard
  else
    match s.dropSuffix? [':'] with
    | some scheme => if isScheme scheme then .scheme else .invalid
    | none =>
      match splitOnce "://".toList s with
      | some (scheme, rest) =>
        if isScheme scheme then parseHostSource (some scheme) rest else .invalid
      | none => parseHostSource none s

def isBase64Value (v : Word) : Bool :=
  let body := v.rdropWhile (· = '=')
  body ≠ [] && v.length - body.length ≤ 2 &&
    body.all fun c ↦ c.isAlphanum || c = '+' || c = '/' || c = '-' || c = '_'

/-! ## Refusals -/

def acceptedKeywords : List Word :=
  ["'self'".toList, "'none'".toList, "'unsafe-inline'".toList, "'unsafe-hashes'".toList,
    "'strict-dynamic'".toList, "'wasm-unsafe-eval'".toList, "'report-sample'".toList]

def valueKinds : List Word :=
  ["nonce-".toList, "sha256-".toList, "sha384-".toList, "sha512-".toList]

def quotedValue (s : Word) : Option Word :=
  (s.dropPrefix? ['\'']).bind fun s ↦ (s.dropSuffix? ['\'']).bind fun inner ↦
    valueKinds.findSome? fun kind ↦ inner.dropPrefix? kind

def keywordRefusal (s : Word) : Option String :=
  if s ∈ acceptedKeywords then none
  else if s = "'unsafe-eval'".toList then some "`'unsafe-eval'` lets any string run as script"
  else
    match quotedValue s with
    | some v =>
      if isBase64Value v then none else some "not a recognised keyword, nonce or hash source"
    | none => some "not a recognised keyword, nonce or hash source"

def scriptSourceRefusal (source : Word) : Option String :=
  let s := asciiLower source
  if s.head? = some '\'' then keywordRefusal s
  else
    match parseSource s with
    | .wildcard => some "`*` admits script from any origin"
    | .scheme =>
      some ("a scheme-only source admits script from every host on that scheme, or " ++
        "(data:, blob:, filesystem:) from strings the page builds")
    | .host _ .any => some "a `*` host admits script from any origin"
    | .host _ .subdomains =>
      some ("a host wildcard admits script from every subdomain, and under a public suffix " ++
        "(`*.github.io`, `*.co.uk`) anyone can register one; list the hosts")
    | .host (some scheme) .exact =>
      if scheme ≠ "https".toList then
        some "script fetched over a scheme other than https can be replaced in transit"
      else none
    | .host none .exact => none
    | .invalid => some "not a valid CSP source expression"

/-- Why `base-uri` or `form-action` does not take a source that the baseline leaves open. -/
def navigationSourceRefusal (source : Word) : Option String :=
  let s := asciiLower source
  let wellFormed :=
    if s = selfSource ∨ s = noneSource then true
    else if s.head? = some '\'' then false
    else parseSource s ≠ .invalid
  if wellFormed then none else some "not a valid source for this directive"

/-- Why a `report-uri` value is refused. -/
def reportUriRefusal (sameOrigin : Word → Bool) (uri : Word) : Option String :=
  let reason :=
    "reports carry page URLs and script samples; only a path on this origin is allowed"
  if uri.head? ≠ some '/' ∨ "//".toList <+: uri ∨ '\\' ∈ uri then some reason
  else if sameOrigin uri then none else some reason

def sourceRule (sameOrigin : Word → Bool) (name : Word) : Word → Option String :=
  if name ∈ scriptDirectives then scriptSourceRefusal
  else if name ∈ narrowOnlyDirectives then navigationSourceRefusal
  else if name = reportUriDirective then reportUriRefusal sameOrigin
  else fun _ ↦ none

/-! ## Parsing -/

def isDirectiveName (s : Word) : Bool := s ≠ [] && s.all fun c ↦ c.isAlphanum || c = '-'

def isValueToken (s : Word) : Bool := s.all fun c ↦ Csp.isVisible c && c ≠ ',' && c ≠ ';'

structure Merging where
  directives : Directives
  refused : List Refusal

def Merging.refuse (m : Merging) (refusals : List Refusal) : Merging :=
  { m with refused := m.refused ++ refusals }

def parseDirective (out : Merging) (raw : List Char) : Merging :=
  match Csp.words raw with
  | [] => out
  | written :: tokens =>
    if !isDirectiveName written then
      out.refuse [⟨written, none, "not a valid directive name"⟩]
    else
      let name := asciiLower written
      if name ∈ out.directives then
        out.refuse [⟨written, none, "duplicate directive; browsers use only the first"⟩]
      else
        let sources := tokens.filter isValueToken
        let out := out.refuse <| (tokens.filter fun token ↦ !isValueToken token).map fun token ↦
          ⟨written, some token, "not a valid CSP token (comma, control or non-ASCII character)"⟩
        if tokens ≠ [] ∧ sources = [] then out
        else { out with directives := out.directives.insert name sources }

/-- Read a policy. -/
def parse (input : List Char) (refused : List Refusal) : Merging :=
  (input.splitOn ';').foldl parseDirective ⟨∅, refused⟩

/-! ## Merging -/

def isNone (source : Word) : Bool := eqIgnoreAsciiCase source noneSource

/-- The sources of an operator's list that keep within the baseline's, and what becomes of the
baseline's list. -/
def narrow (base sources : List Word) : List Word :=
  let kept := sources.filter fun source ↦ isNone source || base.any (eqIgnoreAsciiCase · source)
  if kept.any isNone then [noneSource] else if kept ≠ [] then kept else base

/-- What `narrow` refuses. -/
def narrowRefusals (name : Word) (base sources : List Word) : List Refusal :=
  (sources.filter fun source ↦ !(isNone source || base.any (eqIgnoreAsciiCase · source))).map
    fun source ↦ ⟨name, some source, "can only narrow the baseline for this directive"⟩

def addSource (list : List Word) (source : Word) : List Word :=
  if list.any (eqIgnoreAsciiCase · source) then list
  else if isNone source then if list = [] then [source] else list
  else list.filter (fun s ↦ !isNone s) ++ [source]

def addDirective (sameOrigin : Word → Bool) (m : Merging) (name : Word) (sources : List Word) :
    Merging :=
  let rule := sourceRule sameOrigin name
  if name = reportToDirective ∧ 1 < sources.length then
    m.refuse [⟨name, none, "takes exactly one reporting group name"⟩]
  else
    let accepted := sources.filter fun source ↦ rule source = none
    let m := m.refuse <| sources.filterMap fun source ↦
      (rule source).map fun reason ↦ ⟨name, some source, reason⟩
    if accepted = [] ∧ sources ≠ [] ∧ name ∉ m.directives then m
    else
      let entry := (m.directives.lookup name).getD []
      { m with directives := m.directives.insert name (accepted.foldl addSource entry) }

def mergeDirective (sameOrigin : Word → Bool) (m : Merging) (d : Csp.Directive) : Merging :=
  if d.name = frameAncestorsDirective then
    m.refuse [⟨d.name, none, "set by the `frame_ancestors` config key, not the CSP"⟩]
  else if d.name ∈ narrowOnlyDirectives then
    match m.directives.lookup d.name with
    | some base =>
      { directives := m.directives.insert d.name (narrow base d.sources)
        refused := m.refused ++ narrowRefusals d.name base d.sources }
    | none => addDirective sameOrigin m d.name d.sources
  else addDirective sameOrigin m d.name d.sources

def serialize (ds : Directives) : List Char :=
  join "; ".toList <| ds.inOrder.map fun d ↦
    if d.sources = [] then d.name else d.name ++ ' ' :: join [' '] d.sources

def mergeCsp (sameOrigin : Word → Bool) (baseline custom : List Char) : CspMerge :=
  let base := parse baseline []
  let offered := parse custom base.refused
  let merged := offered.directives.inOrder.foldl (mergeDirective sameOrigin)
    ⟨base.directives, offered.refused⟩
  ⟨serialize merged.directives, merged.refused⟩

end WaferRun.SecurityHeaders
