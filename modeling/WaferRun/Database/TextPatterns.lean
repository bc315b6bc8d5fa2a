import WaferRun.Database.Query
import WaferRun.Lib.Wildcards

/-!
# Text search by pattern

A prefix is searched with `GLOB` on SQLite and with `LIKE` on PostgreSQL, and a part of a text with
`LIKE` on both. The two languages protect a character in different ways: `LIKE` has an escape
character, `GLOB` has none, and a class of one character takes its place. Both escapings turn a text
into its literal pieces (`likePieces_escapeLike`, `globPieces_escapeGlob`), and what a pattern
matches depends on nothing else.

SQLite reads a pattern and the text it is compared with as C strings, up to the first NUL. A prefix
search refuses a pattern with a NUL, and does not look at what a text has behind one. The search for
a part of a text does not refuse it, and loses what comes after the NUL, the last wildcard included:
the rest of the pattern matches texts the filter is not about. Nor does it find what stands behind a
NUL of the text. These are the only flaws (`containsIgnoreCase_exact_iff`).
-/

open List

namespace WaferRun.Database

open Text Wildcards

/-! ## The two languages -/

/-- What C reads of a text: the part before its first NUL. -/
def cString (s : List Char) : List Char := s.takeWhile (· ≠ '\x00')

/-- The pieces of a `LIKE` pattern with `\` as the escape character; it cannot come last. -/
def likePieces (fold : Char → Char) : List Char → Option (List (Piece Char))
  | [] => some []
  | '%' :: pattern => (likePieces fold pattern).map (.many :: ·)
  | '_' :: pattern => (likePieces fold pattern).map (.one (fun _ ↦ true) :: ·)
  | ['\\'] => none
  | '\\' :: c :: pattern => (likePieces fold pattern).map (.exactly fold c :: ·)
  | c :: pattern => (likePieces fold pattern).map (.exactly fold c :: ·)

/-- How far the reading of a `GLOB` pattern has come: outside a class, at its start, after its `^`,
among its members (with the one a range may start at), or after the dash of a range. -/
inductive GlobReading
  | outside
  | opened
  | negated
  | members (negated : Bool) (ranges : List (Char × Char)) (prior : Option Char)
  | dash (negated : Bool) (ranges : List (Char × Char)) (lo : Char)

def classPiece (negated : Bool) (ranges : List (Char × Char)) : Piece Char :=
  .one fun c ↦ negated ^^ ranges.any fun r ↦ r.1 ≤ c ∧ c ≤ r.2

/-- The pieces of a `GLOB` pattern. A `]` that comes first in a class is a member of it, and so is a
`-` without a character on both sides; a class that is not closed matches nothing. -/
def globPieces : GlobReading → List Char → Option (List (Piece Char))
  | .outside, [] => some []
  | .outside, c :: pattern =>
    if c = '*' then (globPieces .outside pattern).map (.many :: ·)
    else if c = '?' then (globPieces .outside pattern).map (.one (fun _ ↦ true) :: ·)
    else if c = '[' then globPieces .opened pattern
    else (globPieces .outside pattern).map (.exactly id c :: ·)
  | .opened, c :: pattern =>
    if c = '^' then globPieces .negated pattern
    else if c = ']' then globPieces (.members false [(c, c)] none) pattern
    else globPieces (.members false [(c, c)] (some c)) pattern
  | .negated, c :: pattern =>
    if c = ']' then globPieces (.members true [(c, c)] none) pattern
    else globPieces (.members true [(c, c)] (some c)) pattern
  | .members negated ranges prior, c :: pattern =>
    if c = ']' then (globPieces .outside pattern).map (classPiece negated ranges :: ·)
    else
      match prior with
      | some lo =>
        if c = '-' then globPieces (.dash negated ranges lo) pattern
        else globPieces (.members negated ((c, c) :: ranges) (some c)) pattern
      | none => globPieces (.members negated ((c, c) :: ranges) (some c)) pattern
  | .dash negated ranges lo, c :: pattern =>
    if c = ']' then
      (globPieces .outside pattern).map (classPiece negated (('-', '-') :: ranges) :: ·)
    else globPieces (.members negated ((lo, c) :: ranges) none) pattern
  | _, [] => none

/-- `LIKE` with `\` as the escape character: SQLite ignores the case of ASCII letters. -/
def sqlLike : Backend → List Char → List Char → Bool
  | .sqlite, pattern, s => (likePieces Char.toLower (cString pattern)).any (matchesAll · (cString s))
  | .postgres, pattern, s => (likePieces id pattern).any (matchesAll · s)

/-- `GLOB` of SQLite. -/
def sqlGlob (pattern s : List Char) : Bool :=
  (globPieces .outside (cString pattern)).any (matchesAll · (cString s))

/-- Whether a text meets a predicate on text, with `lower` for the `LOWER` of the database. -/
def SqlPred.onText (backend : Backend) (lower : List Char → List Char) (s : List Char) :
    SqlPred → Option Bool
  | .lowerLikeEscaped _ pattern => some (sqlLike backend (lower pattern) (lower s))
  | .likeEscaped _ pattern => some (sqlLike backend pattern s)
  | .glob _ pattern => some (sqlGlob pattern s)
  | .never => some false
  | _ => none

/-! ## Escaping -/

theorem likePieces_cons (fold : Char → Char) {c : Char} (hmany : c ≠ '%') (hone : c ≠ '_')
    (hescape : c ≠ '\\') (pattern : List Char) :
    likePieces fold (c :: pattern) = (likePieces fold pattern).map (.exactly fold c :: ·) := by
  rw [likePieces.eq_def]
  split
  · rename_i h
    cases h
  · rename_i h
    exact absurd (cons.inj h).1 hmany
  · rename_i h
    exact absurd (cons.inj h).1 hone
  · rename_i h
    exact absurd (cons.inj h).1 hescape
  · rename_i h
    exact absurd (cons.inj h).1 hescape
  · rename_i h
    obtain ⟨rfl, rfl⟩ := cons.inj h
    rfl

/-- An escaped text is read as its literal pieces. -/
theorem likePieces_escapeLike (fold : Char → Char) (text pattern : List Char) :
    likePieces fold (escapeLike text ++ pattern) =
      (likePieces fold pattern).map (literal fold text ++ ·) := by
  induction text with
  | nil => exact Option.map_id'.symm
  | cons c text ih =>
    have hread : likePieces fold (escapeLike (c :: text) ++ pattern) =
        (likePieces fold (escapeLike text ++ pattern)).map (.exactly fold c :: ·) := by
      rw [escapeLike, flatMap_cons, append_assoc]
      by_cases hspecial : c = '\\' ∨ c = '%' ∨ c = '_'
      · rw [if_pos hspecial]
        rcases hspecial with rfl | rfl | rfl <;> rfl
      · rw [if_neg hspecial]
        push Not at hspecial
        exact likePieces_cons fold hspecial.2.1 hspecial.2.2 hspecial.1 _
    rw [hread, ih, Option.map_map]
    rfl

theorem classPiece_singleton (c : Char) : classPiece false [(c, c)] = .exactly id c := by
  refine congrArg Piece.one (funext fun d ↦ ?_)
  rw [any_cons, any_nil, Bool.or_false, Bool.false_xor, decide_eq_decide]
  exact ⟨fun h ↦ Char.le_antisymm h.1 h.2, fun (h : c = d) ↦ h ▸ ⟨Char.le_refl c, Char.le_refl c⟩⟩

theorem globPieces_escapeGlob (text pattern : List Char) :
    globPieces .outside (escapeGlob text ++ pattern) =
      (globPieces .outside pattern).map (literal id text ++ ·) := by
  induction text with
  | nil => exact Option.map_id'.symm
  | cons c text ih =>
    have hread : globPieces .outside (escapeGlob (c :: text) ++ pattern) =
        (globPieces .outside (escapeGlob text ++ pattern)).map (.exactly id c :: ·) := by
      rw [escapeGlob, flatMap_cons, append_assoc]
      by_cases hspecial : c = '*' ∨ c = '?' ∨ c = '['
      · rw [if_pos hspecial, ← classPiece_singleton]
        rcases hspecial with rfl | rfl | rfl <;> rfl
      · rw [if_neg hspecial, singleton_append, globPieces]
        push Not at hspecial
        rw [if_neg hspecial.1, if_neg hspecial.2.1, if_neg hspecial.2.2]
        rfl
    rw [hread, ih, Option.map_map]
    rfl

/-! ## C strings -/

theorem cString_append {s : List Char} (h : '\x00' ∉ s) (t : List Char) :
    cString (s ++ t) = s ++ cString t := by
  refine takeWhile_append_of_pos fun c hc ↦ decide_eq_true fun hnul ↦ h (hnul ▸ hc)

theorem cString_eq_self {s : List Char} (h : '\x00' ∉ s) : cString s = s := by
  rw [← append_nil s, cString_append h]
  rfl

theorem cString_append_nul {w : List Char} (h : '\x00' ∉ w) (rest : List Char) :
    cString (w ++ '\x00' :: rest) = w := by
  rw [cString_append h]
  exact append_nil w

theorem isPrefix_cString_iff {text : List Char} (h : '\x00' ∉ text) (s : List Char) :
    text <+: cString s ↔ text <+: s := by
  constructor
  · exact fun hpre ↦ hpre.trans ( takeWhile_prefix _)
  · rintro ⟨t, rfl⟩
    rw [cString_append h]
    exact prefix_append text _

theorem mem_escape {special : Char → Prop} [DecidablePred special] {wrap : Char → List Char}
    {text : List Char} {c : Char} (hwrap : ∀ d, c ∈ wrap d → c = d)
    (h : c ∈ text.flatMap fun d ↦ if special d then wrap d else [d]) : c ∈ text := by
  obtain ⟨d, hd, hc⟩ := mem_flatMap.mp h
  by_cases hspecial : special d
  · rw [if_pos hspecial] at hc
    exact hwrap d hc ▸ hd
  · rw [if_neg hspecial] at hc
    exact mem_singleton.mp hc ▸ hd

theorem nul_not_mem_escapeLike {text : List Char} (h : '\x00' ∉ text) :
    '\x00' ∉ escapeLike text := by
  refine fun hmem ↦ h (mem_escape (fun d hd ↦ ?_) hmem)
  rcases mem_cons.mp hd with heq | hd
  · exact absurd heq (by decide)
  · exact mem_singleton.mp hd

theorem nul_not_mem_escapeGlob {text : List Char} (h : '\x00' ∉ text) :
    '\x00' ∉ escapeGlob text := by
  refine fun hmem ↦ h (mem_escape (fun d hd ↦ ?_) hmem)
  rcases mem_cons.mp hd with heq | hd
  · exact absurd heq (by decide)
  rcases mem_cons.mp hd with heq | hd
  · exact heq
  · exact absurd (mem_singleton.mp hd) (by decide)

/-! ## Prefixes -/

theorem sqlGlob_escapeGlob {text : List Char} (h : '\x00' ∉ text) (s : List Char) :
    sqlGlob (escapeGlob text ++ ['*']) s = true ↔ text <+: s := by
  have hread : cString (escapeGlob text ++ ['*']) = escapeGlob text ++ ['*'] := by
    rw [cString_append (nul_not_mem_escapeGlob h)]
    rfl
  rw [sqlGlob, hread, globPieces_escapeGlob]
  change matchesAll (literal id text ++ [.many]) (cString s) = true ↔ _
  rw [matchesAll_literal_many, map_id, map_id, isPrefix_cString_iff h]

theorem sqlLike_escapeLike (text s : List Char) :
    sqlLike .postgres (escapeLike text ++ ['%']) s = true ↔ text <+: s := by
  rw [sqlLike, likePieces_escapeLike]
  change matchesAll (literal id text ++ [.many]) s = true ↔ _
  rw [matchesAll_literal_many, map_id, map_id]

/-- On both databases the texts that meet a prefix search are those that start with its text. -/
theorem startsWith_iff_isPrefix (toDouble : JsonNumber → UInt64) (lower : List Char → List Char)
    (field text : String) (hnul : '\x00' ∉ text.toList) (s : List Char) :
    (sqlGlob (escapeGlob text.toList ++ ['*']) s = true ↔ text.toList <+: s) ∧
      (sqlLike .postgres (escapeLike text.toList ++ ['%']) s = true ↔ text.toList <+: s) ∧
      ∀ backend, (leafExpr toDouble ⟨field, .startsWith, .string text⟩ backend).onText backend lower s
        = some (decide (text.toList <+: s)) := by
  refine ⟨sqlGlob_escapeGlob hnul s, sqlLike_escapeLike text.toList s, fun backend ↦ ?_⟩
  cases backend with
  | sqlite =>
    have hpred : leafExpr toDouble ⟨field, .startsWith, .string text⟩ .sqlite =
        .glob field (escapeGlob text.toList ++ ['*']) := if_neg hnul
    rw [hpred]
    exact congrArg some (Bool.eq_iff_iff.mpr
      ((sqlGlob_escapeGlob hnul s).trans decide_eq_true_iff.symm))
  | postgres =>
    have hpred : leafExpr toDouble ⟨field, .startsWith, .string text⟩ .postgres =
        .likeEscaped field (escapeLike text.toList ++ ['%']) := if_neg hnul
    rw [hpred]
    exact congrArg some (Bool.eq_iff_iff.mpr
      ((sqlLike_escapeLike text.toList s).trans decide_eq_true_iff.symm))

theorem startsWith_iff_isPrefix_brackets :
    (sqlGlob (escapeGlob "[*]\\".toList ++ ['*']) "[*]\\x".toList = true ↔
        "[*]\\".toList <+: "[*]\\x".toList) ∧
      (sqlLike .postgres (escapeLike "[*]\\".toList ++ ['%']) "[*]\\x".toList = true ↔
        "[*]\\".toList <+: "[*]\\x".toList) ∧
      ∀ backend, (leafExpr (fun _ ↦ 0) ⟨"key", .startsWith, .string "[*]\\"⟩ backend).onText backend
        asciiLower "[*]\\x".toList = some (decide ("[*]\\".toList <+: "[*]\\x".toList)) :=
  startsWith_iff_isPrefix (fun _ ↦ 0) asciiLower "key" "[*]\\" (by decide) _

/-! ## Parts of a text -/

theorem asciiLower_escapeLike (text : List Char) :
    asciiLower (escapeLike text) = escapeLike (asciiLower text) := by
  induction text with
  | nil => rfl
  | cons c text ih =>
    have hspecial : (c.toLower = '\\' ∨ c.toLower = '%' ∨ c.toLower = '_') ↔
        c = '\\' ∨ c = '%' ∨ c = '_' := by
      rw [toLower_eq_iff (by decide), toLower_eq_iff (by decide), toLower_eq_iff (by decide)]
    have hlower : asciiLower (c :: text) = c.toLower :: asciiLower text := rfl
    rw [hlower, escapeLike, escapeLike, flatMap_cons, flatMap_cons, asciiLower,
      map_append, ← asciiLower, ← asciiLower]
    refine congrArg₂ (· ++ ·) ?_ ih
    by_cases h : c = '\\' ∨ c = '%' ∨ c = '_'
    · rw [if_pos h, if_pos (hspecial.mpr h)]
      rfl
    · rw [if_neg h, if_neg (mt hspecial.mp h)]
      rfl

theorem nul_mem_asciiLower {text : List Char} : '\x00' ∈ asciiLower text ↔ '\x00' ∈ text := by
  rw [asciiLower, mem_map]
  constructor
  · rintro ⟨c, hc, hlower⟩
    exact (toLower_eq_iff (by decide)).mp hlower ▸ hc
  · exact fun h ↦ ⟨'\x00', h, rfl⟩

theorem cString_asciiLower (s : List Char) : cString (asciiLower s) = asciiLower (cString s) := by
  have hnul : (fun c : Char ↦ decide (c ≠ '\x00')) ∘ Char.toLower = fun c ↦ decide (c ≠ '\x00') :=
    funext fun c ↦ decide_eq_decide.mpr (not_congr (toLower_eq_iff (by decide)))
  rw [cString, asciiLower, takeWhile_map, hnul]
  rfl

theorem asciiLower_containsPattern (text : List Char) :
    asciiLower ('%' :: escapeLike text ++ ['%']) =
      '%' :: (escapeLike (asciiLower text) ++ ['%']) := by
  rw [← asciiLower_escapeLike, asciiLower, map_append]
  rfl

theorem sqlLike_contains {text : List Char} (h : '\x00' ∉ text) (s : List Char) :
    sqlLike .sqlite (asciiLower ('%' :: escapeLike text ++ ['%'])) (asciiLower s) = true ↔
      asciiLower text <:+: asciiLower (cString s) := by
  have hnul : '\x00' ∉ '%' :: escapeLike (asciiLower text) := by
    refine not_mem_cons_of_ne_of_not_mem (by decide) ?_
    exact nul_not_mem_escapeLike (mt nul_mem_asciiLower.mp h)
  have hread : cString ('%' :: (escapeLike (asciiLower text) ++ ['%'])) =
      '%' :: (escapeLike (asciiLower text) ++ ['%']) := by
    rw [← cons_append, cString_append hnul]
    rfl
  rw [sqlLike, asciiLower_containsPattern, hread, likePieces, likePieces_escapeLike]
  change matchesAll (.many :: (literal Char.toLower (asciiLower text) ++ [.many]))
    (cString (asciiLower s)) = true ↔ _
  rw [matchesAll_many_literal_many, cString_asciiLower, ← asciiLower, ← asciiLower,
    asciiLower_asciiLower, asciiLower_asciiLower]

theorem sqlLike_contains_nul {w : List Char} (h : '\x00' ∉ w) (rest s : List Char) :
    sqlLike .sqlite (asciiLower ('%' :: escapeLike (w ++ '\x00' :: rest) ++ ['%'])) (asciiLower s) =
      true ↔ asciiLower w <:+ asciiLower (cString s) := by
  have hnul : '\x00' ∉ '%' :: escapeLike (asciiLower w) := by
    refine not_mem_cons_of_ne_of_not_mem (by decide) ?_
    exact nul_not_mem_escapeLike (mt nul_mem_asciiLower.mp h)
  have hsplit : escapeLike (asciiLower (w ++ '\x00' :: rest)) =
      escapeLike (asciiLower w) ++ '\x00' :: escapeLike (asciiLower rest) := by
    rw [asciiLower, map_append, escapeLike, flatMap_append]
    rfl
  have hread : cString ('%' :: (escapeLike (asciiLower (w ++ '\x00' :: rest)) ++ ['%'])) =
      '%' :: escapeLike (asciiLower w) := by
    rw [hsplit, append_assoc, ← cons_append, cString_append hnul]
    exact append_nil _
  have hpieces := likePieces_escapeLike Char.toLower (asciiLower w) []
  rw [append_nil] at hpieces
  rw [sqlLike, asciiLower_containsPattern, hread, likePieces, hpieces]
  change matchesAll (.many :: (literal Char.toLower (asciiLower w) ++ []))
    (cString (asciiLower s)) = true ↔ _
  rw [append_nil, matchesAll_many_literal, cString_asciiLower, ← asciiLower, ← asciiLower,
    asciiLower_asciiLower, asciiLower_asciiLower]

/-- That the search for a text does not go wrong at a NUL: what the text has before its own does not
end what `s` has before its first, and a text without one is not found behind one only. -/
def NulHarmless (text s : List Char) : Prop :=
  if '\x00' ∈ text then ¬asciiLower (cString text) <:+ asciiLower (cString s)
  else asciiLower text <:+: asciiLower s → asciiLower text <:+: asciiLower (cString s)

/-- A search for a part of a text is exact if no NUL stands in its way, and only then. -/
theorem containsIgnoreCase_exact_iff (toDouble : JsonNumber → UInt64) (field text : String)
    (s : List Char) :
    (leafExpr toDouble ⟨field, .containsIgnoreCase, .string text⟩ .sqlite).onText .sqlite
        asciiLower s =
      some (decide ('\x00' ∉ text.toList ∧ asciiLower text.toList <:+: asciiLower s)) ↔
      NulHarmless text.toList s := by
  rw [leafExpr, SqlPred.onText, Option.some.injEq, Bool.eq_iff_iff, decide_eq_true_eq, NulHarmless]
  by_cases hnul : '\x00' ∈ text.toList
  · obtain ⟨w, rest, htext, hw⟩ := eq_append_cons_of_mem hnul
    rw [if_pos hnul, htext, sqlLike_contains_nul hw, cString_append_nul hw, ← htext]
    exact iff_false_right fun h ↦ h.1 hnul
  · have hcut : asciiLower (cString s) <:+: asciiLower s :=
      (( takeWhile_prefix _).map Char.toLower).isInfix
    rw [if_neg hnul, sqlLike_contains hnul, and_iff_right hnul]
    exact ⟨fun h ↦ h.mpr, fun h ↦ ⟨fun hfound ↦ hfound.trans hcut, h⟩⟩

/-- A search for a NUL and an `x` finds every text. -/
theorem containsIgnoreCase_nul_widens :
    ¬∀ (toDouble : JsonNumber → UInt64) (field text : String) (s : List Char),
      (leafExpr toDouble ⟨field, .containsIgnoreCase, .string text⟩ .sqlite).onText .sqlite
          asciiLower s =
        some (decide ('\x00' ∉ text.toList ∧ asciiLower text.toList <:+: asciiLower s)) := by
  intro hall
  have h := hall (fun _ ↦ 0) "name" "\x00x" "ann".toList
  revert h
  decide

end WaferRun.Database
