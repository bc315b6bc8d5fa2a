import Mathlib
import WaferRun.Flow.PermissionsExact

/-!
# What a browser makes of the security headers

A browser reads each of the six security headers in its own way. In each reading the larger element
is the stricter one, and a value that is ignored is the least element.

* A content security policy is the set of the policies it enforces.
* Frame options, as the HTML standard reads them, are `2` if no page may frame, `1` if only pages of
  the same origin may, and `0` if the value says nothing.
* Content sniffing is off or on.
* A referrer policy is what it lets requests to another origin receive, and those to its own.
* Transport security, as RFC 6797 has it, is an age with a flag for subdomains.
* A permissions policy, a dictionary of RFC 8941, is one allowlist for each feature.

The code has its own readers of these values. For frame options it takes every comma for a separator
(`xFrameOptionsRank_eq`) and for transport security every semicolon, and there any text is a
directive to it (`map_parseHsts`). A browser takes a separator inside a quoted string for a part of
the string, and ignores a transport security that has anything else than directives.

The white space around a part is removed as the code removes it; a value that can be sent has no other
white space than spaces and tabs.
-/

open List
open Option (bind_eq_some_iff map_eq_some_iff)

namespace WaferRun.RestrictiveHeaders

open Text
open StructuredFields (dictionary)

/-! ## Parts of a value -/

/-- The parts of a text between the separators outside of quoted strings. -/
def partsFrom (sep : Char) : (quoted escaped : Bool) → List Char → List (List Char)
  | _, _, [] => [[]]
  | quoted, escaped, c :: s =>
    if c = sep ∧ quoted = false then [] :: partsFrom sep false false s
    else
      (partsFrom sep (if escaped then quoted else quoted ^^ decide (c = '"'))
        (quoted && !escaped && decide (c = '\\')) s).modifyHead (c :: ·)

def parts (sep : Char) (value : List Char) : List (List Char) := partsFrom sep false false value

def policyWords (policy : List Char) : List (List Char) :=
  (policy.splitOnP isAsciiWhitespace).filter (· ≠ [])

/-- Something stands beside the semicolons of a policy. -/
def HasDirective (policy : List (List Char)) : Prop := ∃ word ∈ policy, ∃ c ∈ word, c ≠ ';'

/-- The policies of a value that have a directive, each as its words. -/
def enforcedPolicies (value : List Char) : Set (List (List Char)) :=
  {w | HasDirective w ∧ ∃ policy ∈ value.splitOn ',', policyWords policy = w}

/-- What the parts of a value say about framing, by the HTML standard. -/
def framing (parts : List (List Char)) : ℕ :=
  let values := parts.map fun part ↦ asciiLower (trim part)
  if ∃ v ∈ values, ∃ w ∈ values, v ≠ w then
    -- a conflict blocks if there is a value to conflict with
    if ∃ v ∈ values, v ∈ ["deny".toList, "allowall".toList, "sameorigin".toList] then 2 else 0
  else if "deny".toList ∈ values then 2
  else if "sameorigin".toList ∈ values then 1
  else 0

/-- The first part is `nosniff`. If there is a quote in it it is not, wherever it ends. -/
def stopsSniffing (value : List Char) : Bool :=
  asciiLower (trim (value.takeWhile (· ≠ ','))) = "nosniff".toList

/-- What a referrer policy lets a request to another origin receive: nothing, the origin if over
`https`, the origin, the whole address if over `https`, or the whole address. Then what it lets one to
the same origin receive: nothing, the origin, or the whole address. -/
def referrerSent : List (List Char × ℕ ×ₗ ℕ) :=
  [("no-referrer".toList, toLex (0, 0)), ("same-origin".toList, toLex (0, 2)),
    ("strict-origin".toList, toLex (1, 1)),
    ("strict-origin-when-cross-origin".toList, toLex (1, 2)), ("origin".toList, toLex (2, 1)),
    ("origin-when-cross-origin".toList, toLex (2, 2)),
    ("no-referrer-when-downgrade".toList, toLex (3, 2)), ("unsafe-url".toList, toLex (4, 2))]

/-- What is sent under the last policy of a value that is one. -/
def referrerSending (value : List Char) : WithBot (ℕ ×ₗ ℕ)ᵒᵈ :=
  ((value.splitOn ',').filterMap fun part ↦
    referrerSent.lookup (asciiLower (trim part))).getLast?.map OrderDual.toDual

/-- The name of a directive, in lower case, and its value. -/
abbrev Directive := List Char × Option (List Char)

def directive (part : List Char) : Directive :=
  match splitOnce ['='] part with
  | some (name, arg) => (asciiLower (trim name), some (trim arg))
  | none => (asciiLower part, none)

def directives (parts : List (List Char)) : List Directive :=
  ((parts.map trim).filter (· ≠ [])).map directive

/-- The text ends with the quote that closes a string. -/
def closesQuote (escaped : Bool) : List Char → Bool
  | [] => false
  | c :: s =>
    if !escaped && c = '"' then s.isEmpty else closesQuote (!escaped && decide (c = '\\')) s

/-- A token or a quoted string. -/
def isDirectiveValue (value : List Char) : Bool :=
  (!value.isEmpty && value.all isTchar) ||
    (value.head? = some '"' && closesQuote false value.tail)

/-- A directive by its grammar. -/
def isDirective (d : Directive) : Bool :=
  !d.1.isEmpty && d.1.all isTchar && d.2.all isDirectiveValue &&
    (d.1 ≠ "includesubdomains".toList || d.2 = none)

/-- A number of seconds, perhaps in quotes, cut off at the largest 64-bit one. -/
def deltaSeconds (arg : List Char) : Option ℕ :=
  let digits :=
    if arg.head? = some '"' ∧ arg.tail.getLast? = some '"' then arg.tail.dropLast else arg
  if digits ≠ [] ∧ digits.all Char.isDigit then
    some (min (Nat.ofDigitChars 10 digits 0) (2 ^ 64 - 1))
  else none

/-- What directives say, each at most once and each as `accepts` has it: the age and whether
subdomains are included. -/
def transport (accepts : Directive → Bool) (ds : List Directive) : Option (ℕ × Bool) :=
  if ds.all accepts ∧ (ds.map Prod.fst).Nodup then
    (((ds.lookup "max-age".toList).bind id).bind deltaSeconds).map fun n ↦
      (n, decide ("includesubdomains".toList ∈ ds.map Prod.fst))
  else none

def transportPolicy (value : List Char) : Option (ℕ × Bool) :=
  transport isDirective (directives (parts ';' value))

/-- What the code makes of a value. -/
def plainTransport (value : List Char) : Option (ℕ × Bool) :=
  transport (fun _ ↦ true) (directives (value.splitOn ';'))

theorem parseMaxAge_eq (arg : List Char) : parseMaxAge arg = deltaSeconds arg := by
  unfold parseMaxAge deltaSeconds
  dsimp only
  generalize (if arg.head? = some '"' ∧ arg.tail.getLast? = some '"' then arg.tail.dropLast
    else arg) = digits
  rw [Nat.ofDigitChars_eq_foldl]
  by_cases h : digits ≠ [] ∧ digits.all Char.isDigit = true
  · rw [if_pos h, if_neg (by tauto)]
  · rw [if_neg h, if_pos (by tauto)]

theorem HstsReader.read_eq (r : HstsReader) (part : List Char) :
    r.read part =
      if (directive part).1 ∈ r.seen then none
      else
        let r := { r with seen := r.seen ++ [(directive part).1] }
        if (directive part).1 = "max-age".toList then
          ((directive part).2.bind deltaSeconds).map fun n ↦ { r with maxAge := some n }
        else if (directive part).1 = "includesubdomains".toList then
          some { r with includeSubdomains := true }
        else if (directive part).1 = "preload".toList then some { r with preload := true }
        else some r := by
  have hage : parseMaxAge = deltaSeconds := funext parseMaxAge_eq
  unfold read directive
  rw [hage]
  rcases splitOnce ['='] part with - | ⟨name, arg⟩ <;> rfl

/-- What a run of the reader over directives says, from any state of it. -/
theorem HstsReader.run (ps : List (List Char)) (r : HstsReader) :
    ((ps.foldlM read r).bind fun r' ↦ r'.maxAge.map fun n ↦ (n, r'.includeSubdomains)) =
      if (∀ d ∈ ps.map directive, d.1 ∉ r.seen) ∧ ((ps.map directive).map Prod.fst).Nodup then
        (((ps.map directive).lookup "max-age".toList).elim r.maxAge (·.bind deltaSeconds)).map
          fun n ↦ (n, r.includeSubdomains ||
            decide ("includesubdomains".toList ∈ (ps.map directive).map Prod.fst))
      else none := by
  have hread := HstsReader.read_eq
  have hother : "max-age".toList ≠ "includesubdomains".toList := by decide
  generalize "max-age".toList = age, "includesubdomains".toList = incl at hother hread ⊢
  induction ps generalizing r with
  | nil => simp
  | cons p ps ih =>
    -- a state in which the name has been seen goes on with the other directives
    have hrest (r' : HstsReader) (hseen' : r'.seen = r.seen ++ [(directive p).1])
        (hseen : (directive p).1 ∉ r.seen) :
        ((∀ d ∈ ps.map directive, d.1 ∉ r'.seen) ∧ ((ps.map directive).map Prod.fst).Nodup) ↔
          (∀ d ∈ (p :: ps).map directive, d.1 ∉ r.seen) ∧
            (((p :: ps).map directive).map Prod.fst).Nodup := by
      rw [hseen', map_cons, map_cons, forall_mem_cons, nodup_cons, List.mem_map]
      simp only [mem_append, mem_singleton, not_or, forall_and, not_exists, not_and]
      tauto
    rw [foldlM_cons, hread, map_cons, map_cons]
    by_cases hseen : (directive p).1 ∈ r.seen
    · rw [if_pos hseen, if_neg fun h ↦ h.1 _ mem_cons_self hseen]
      rfl
    rw [if_neg hseen]
    dsimp only
    have hmem (h : (directive p).1 ≠ incl) :
        decide (incl ∈ (directive p).1 :: (ps.map directive).map Prod.fst) =
          decide (incl ∈ (ps.map directive).map Prod.fst) :=
      decide_eq_decide.mpr (mem_cons.trans (or_iff_right (Ne.symm h)))
    by_cases hage : (directive p).1 = age
    · have hlookup : (directive p :: ps.map directive).lookup age = some (directive p).2 := by
        rw [lookup_cons, hage, beq_self_eq_true]
      rw [if_pos hage, hlookup, Option.elim_some]
      cases hn : (directive p).2.bind deltaSeconds with
      | none =>
        simp only [Option.map_none, ite_self]
        rfl
      | some n =>
        refine (ih _).trans (ite_congr (propext (hrest _ rfl hseen)) (fun h ↦ ?_) fun _ ↦ rfl)
        have hnone : (ps.map directive).lookup age = none := by
          refine lookup_eq_none_iff.mpr fun d hd ↦ ?_
          have hnew := (nodup_cons.mp h.2).1
          rw [hage] at hnew
          refine bne_iff_ne.mpr ?_
          rintro rfl
          exact hnew (mem_map_of_mem hd)
        rw [hnone, Option.elim_none, hmem (hage ▸ hother)]
    have hlookup : (directive p :: ps.map directive).lookup age = (ps.map directive).lookup age := by
      rw [lookup_cons, beq_false_of_ne (Ne.symm hage)]
    rw [if_neg hage, hlookup]
    by_cases hincl : (directive p).1 = incl
    · rw [if_pos hincl]
      refine (ih _).trans (ite_congr (propext (hrest _ rfl hseen)) (fun _ ↦ ?_) fun _ ↦ rfl)
      rw [hincl, decide_eq_true mem_cons_self, Bool.or_true]
      rfl
    rw [if_neg hincl, hmem hincl]
    split
    · exact (ih _).trans (ite_congr (propext (hrest _ rfl hseen)) (fun _ ↦ rfl) fun _ ↦ rfl)
    · exact (ih _).trans (ite_congr (propext (hrest _ rfl hseen)) (fun _ ↦ rfl) fun _ ↦ rfl)

/-- A text as the code writes it. -/
def Hsts.print (h : Hsts) : List Char :=
  "max-age=".toList ++ Nat.toDigits 10 h.maxAge ++
    (if h.includeSubdomains then "; includeSubDomains".toList else []) ++
    (if h.preload then "; preload".toList else [])

/-- The origins a dictionary allows each feature for, where a star stands for all origins. A feature
that it does not name is allowed for `self`. -/
def featureOrigins (decodes : List Char → Bool) (value : List Char) :
    WithBot (List Char → (Set (List Char))ᵒᵈ) :=
  (dictionary (.strict decodes) value).map fun dict feature ↦
    OrderDual.toDual <|
      match dict.find? fun m ↦ m.key = feature with
      | none => {"self".toList}
      | some m => {i | ∃ b ∈ m.value.items, b.written = ['*'] ∨ b.written = i}

section Permissions

variable {decodes : List Char → Bool} {value : List Char}

end Permissions

end WaferRun.RestrictiveHeaders
