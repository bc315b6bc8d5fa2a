import WaferRun.Wrap.Ownership

/-!
# Grants and what they admit

A grant names a grantee, a pattern of resources, how much the grantee may change and, optionally,
the type of resource it is about. Patterns that start like a URL are matched part by part against
a parsed URL. All others are globs: literal pieces that must occur in order, the first of them at
the very beginning.

Parsing a URL is left to a parameter. What ownership needs of patterns is only `globMatches`, and
of that only that a match starts with the literal text before the first star.
-/

namespace WaferRun

open Text

/-- The beginning of the config keys of the platform. -/
def waferRunSharedPrefix : String := "WAFER_RUN_SHARED__"

inductive ResourceAccess
  | read | append | write
deriving DecidableEq, Repr

inductive GrantWrite
  | none | full | append
deriving DecidableEq, Repr

/-- Access to the resources a pattern matches, for one block or for every block. -/
structure ResourceGrant where
  grantee : String
  resource : String
  write : GrantWrite
  resourceType : Option ResourceType
deriving DecidableEq, Repr

namespace ResourceGrant

def admits (g : ResourceGrant) (access : ResourceAccess) : Bool :=
  match g.write with
  | .none => access = .read
  | .full => true
  | .append => access = .append ∧ g.resourceType = some .db

def checkShape (g : ResourceGrant) : Except String Unit :=
  if g.write = .append ∧ g.resourceType ≠ some .db then
    .error "append-only grants apply to database collections only; type the grant `db`"
  else .ok ()

end ResourceGrant

/-! ## Patterns -/

structure Url where
  scheme : String
  host : Option String
  path : String
deriving DecidableEq, Repr

/-- The text that stands for `*` while a pattern is parsed as a URL. -/
def starSentinel : List Char := "wafer-star-placeholder".toList

/-- Put the stars back into a part of a parsed pattern. -/
def restoreStars (s : String) : List Char := replace starSentinel ['*'] s.toList

/-- Match a host against a host pattern; `**.` is any depth of subdomains, `*.` exactly one. -/
def hostPatternMatches (pattern host : List Char) : Bool :=
  let pattern := pattern.map Char.toLower
  let host := host.map Char.toLower
  if pattern = ['*'] then true
  else if ['*', '*', '.'] <+: pattern then
    let suffix := pattern.drop 3
    host = suffix ∨ ('.' :: suffix) <:+ host
  else if ['*', '.'] <+: pattern then
    let suffix := pattern.drop 2
    if ('.' :: suffix) <:+ host then
      let rest := host.take (host.length - (suffix.length + 1))
      rest ≠ [] ∧ '.' ∉ rest
    else false
  else pattern = host

def hostMatches : Option (List Char) → Option (List Char) → Bool
  | some p, some r => hostPatternMatches p r
  | none, none => true
  | _, _ => false

/-- Match a path: below the pattern if it ends in `/*`, else exactly. -/
def pathMatches (pattern path : List Char) : Bool :=
  if ['/', '*'] <:+ pattern then
    let stem := pattern.take (pattern.length - 2)
    path = stem ∨ (stem ++ ['/']) <+: path
  else if pattern = ['*'] then true
  else pattern = path

def urlPatternMatches (parse : String → Option Url) (pattern resource : String) : Bool :=
  match parse (String.ofList (replaceChar '*' starSentinel pattern.toList)), parse resource with
  | some p, some r =>
    p.scheme = r.scheme &&
      hostMatches (p.host.map restoreStars) (r.host.map String.toList) &&
      pathMatches (restoreStars p.path) r.path.toList
  | _, _ => false

/-- Find the pieces of a glob in order, and return what follows the last of them. The first piece
must stand at the beginning. -/
def globPieces (first : Bool) : List (List Char) → List Char → Option (List Char)
  | [], rest => some rest
  | piece :: pieces, rest =>
    if piece = [] then globPieces false pieces rest
    else
      match splitOnce piece rest with
      | none => none
      | some (before, after) =>
        if first ∧ before ≠ [] then none else globPieces false pieces after

def globMatches (pattern resource : String) : Bool :=
  let pieces := pattern.toList.splitOn '*'
  if pieces.length = 1 then resource = pattern
  else
    match globPieces true pieces resource.toList with
    | none => false
    | some rest => if ['*'] <:+ pattern.toList then true else rest = []

def isUrlPattern (s : String) : Bool :=
  "http://".toList <+: s.toList ∨ "https://".toList <+: s.toList

section Matching

variable (parse : String → Option Url)

def grantMatchesResource (pattern resource : String) : Bool :=
  if pattern = "*" then true
  else if isUrlPattern pattern then urlPatternMatches parse pattern resource
  else globMatches pattern resource

def grantMatchesGrantee (grantee caller : String) : Bool := grantee = "*" ∨ grantee = caller

/-- Whether a grant admits a caller to a resource. A typed grant only admits requests of its
type, an untyped one requests of every type. -/
def grantAllows (g : ResourceGrant) (caller resource : String) (access : ResourceAccess)
    (resourceType : Option ResourceType) : Bool :=
  grantMatchesGrantee g.grantee caller && grantMatchesResource parse g.resource resource &&
    g.admits access && (g.resourceType = none ∨ g.resourceType = resourceType)

variable {parse}

theorem grantAllows_eq_true {g : ResourceGrant} {caller resource : String} {access : ResourceAccess}
    {resourceType : Option ResourceType}
    (h : grantAllows parse g caller resource access resourceType = true) :
    grantMatchesResource parse g.resource resource = true ∧
      (g.resourceType = none ∨ g.resourceType = resourceType) := by
  unfold grantAllows at h
  rw [Bool.and_eq_true, Bool.and_eq_true, Bool.and_eq_true, decide_eq_true_eq] at h
  exact ⟨h.1.1.2, h.2⟩

end Matching

theorem globMatches_of_not_mem {pattern resource : String} (hstar : '*' ∉ pattern.toList)
    (h : globMatches pattern resource = true) : resource = pattern := by
  unfold globMatches at h
  rw [List.splitOn_eq_singleton hstar] at h
  simpa using h

theorem isPrefix_of_globMatches {pattern resource : String} {literal rest : List Char}
    (hsplit : splitOnce ['*'] pattern.toList = some (literal, rest))
    (h : globMatches pattern resource = true) : literal <+: resource.toList := by
  obtain ⟨hp, hl⟩ := splitOnce_singleton_eq_some.mp hsplit
  by_cases hnil : literal = []
  · exact hnil ▸ List.nil_prefix
  unfold globMatches at h
  rw [hp, List.splitOn_append_cons_self_of_not_mem hl] at h
  have hlen : (literal :: rest.splitOn '*').length ≠ 1 := by
    have := List.length_pos_of_ne_nil (List.splitOn_ne_nil '*' rest)
    rw [List.length_cons]
    omega
  simp only [hlen, if_false] at h
  split at h; · cases h
  next after hpieces =>
    rw [globPieces, if_neg hnil] at hpieces
    split at hpieces; · cases hpieces
    next before after' h1 =>
      split at hpieces; · cases hpieces
      next hbefore =>
        have hb : before = [] := by
          by_contra hb
          exact hbefore ⟨rfl, hb⟩
        rw [eq_of_splitOnce h1, hb, List.nil_append]
        exact List.prefix_append literal after'

end WaferRun
