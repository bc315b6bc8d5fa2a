import WaferRun.Database.Guard
import WaferRun.Database.Ident

/-!
# Column defaults

A statement that creates a column takes no parameters, so the default of a column is written into
its text. A string becomes a literal of the dialect, and the database reads it back with its lexer.

SQLite has one rule, a doubled quote. In a PostgreSQL escape string a backslash is an escape too,
for the quote among others, and a literal goes on after white space and comments with a line break
if another quote follows there. Doubling both characters leaves no escape but a doubled backslash and a
doubled quote (`lexString_stringLiteral`), in the middle and at the end of a string alike. The
other escapes, and whether an escaped quote is allowed at all, do not matter then.
-/

open List

namespace WaferRun.Database

open Text

/-! ## The text of a default -/

inductive DefaultVal
  | string (s : String)
  | int (i : ℤ)
  | float (bits : UInt64)
  | bool (b : Bool)

inductive DefaultValue
  | null
  | now
  | value (v : DefaultVal)

def stringLiteral (s : List Char) (backend : Backend) : Except SqlBuildError (List Char) :=
  if '\x00' ∈ s then
    .error (.invalidDefault "a string default cannot contain a NUL character")
  else
    match backend with
    | .sqlite => .ok ('\'' :: replaceChar '\'' ['\'', '\''] s ++ ['\''])
    | .postgres => .ok ('E' :: '\'' ::
        replaceChar '\'' ['\'', '\''] (replaceChar '\\' ['\\', '\\'] s) ++ ['\''])

/-- The text of a `DEFAULT` clause; whether a float is finite and how it is printed are given. -/
def defaultToSql (isFinite : UInt64 → Bool) (showFloat : UInt64 → String) (d : DefaultValue)
    (backend : Backend) : Except SqlBuildError (List Char) :=
  match d with
  | .null => .ok "NULL".toList
  | .now =>
    match backend with
    | .sqlite => .ok "CURRENT_TIMESTAMP".toList
    | .postgres => .ok "NOW()".toList
  | .value (.string s) => stringLiteral s.toList backend
  | .value (.int i) => .ok (toString i).toList
  | .value (.float bits) =>
    if isFinite bits then .ok (showFloat bits).toList
    else .error (.invalidDefault (showFloat bits ++ " has no SQL literal"))
  | .value (.bool b) =>
    match backend with
    | .sqlite => .ok (if b then ['1'] else ['0'])
    | .postgres => .ok (if b then "TRUE" else "FALSE").toList

/-! ## The lexers -/

/-- The rest of an SQLite string after its opening quote: its value, and what follows it. -/
def sqliteString : List Char → Option (List Char × List Char)
  | [] => none
  | c :: s =>
    if c = '\x00' then none
    else if c = '\'' then
      match s with
      | '\'' :: s => (sqliteString s).map fun r ↦ ('\'' :: r.1, r.2)
      | _ => some ([], s)
    else (sqliteString s).map fun r ↦ (c :: r.1, r.2)

/-- How a PostgreSQL session reads the escapes: whether a backslash may stand before a quote, and
the character a numeric escape stands for, with how many characters it takes. -/
structure PgEscapes where
  backslashQuote : Bool
  numeric : List Char → Option (Char × ℕ)

def namedEscape (c : Char) : Option Char :=
  [('b', '\x08'), ('f', '\x0c'), ('n', '\n'), ('r', '\r'), ('t', '\t')].lookup c

def PgEscapes.read (E : PgEscapes) (c : Char) (s : List Char) : Option (Char × List Char) :=
  match namedEscape c with
  | some d => some (d, s)
  | none =>
    if c = 'x' ∨ c = 'u' ∨ c = 'U' ∨ ('0' ≤ c ∧ c ≤ '7') then
      (E.numeric (c :: s)).map fun r ↦ (r.1, (c :: s).drop (max r.2 1))
    else if c = '\'' ∧ !E.backslashQuote then none
    else some (c, s)

/-- What is left of a text after white space, `--` comments and a quote, inside a comment or not and
after a line break or not. -/
def goesOnFrom (comment newline : Bool) : List Char → Option (List Char)
  | [] => none
  | c :: s =>
    if c = '\n' ∨ c = '\r' then goesOnFrom false true s
    else if comment then goesOnFrom true newline s
    else if c = ' ' ∨ c = '\t' ∨ c = '\x0b' ∨ c = '\x0c' then goesOnFrom false newline s
    else if c = '-' ∧ s.head? = some '-' then goesOnFrom true newline s
    else if c = '\'' ∧ newline then some s
    else none

/-- A literal goes on after white space and comments with a line break and a quote. -/
def goesOn (s : List Char) : Option (List Char) := goesOnFrom false false s

theorem PgEscapes.length_read {E : PgEscapes} {c d : Char} {s rest : List Char}
    (h : E.read c s = some (d, rest)) : rest.length ≤ s.length := by
  unfold read at h
  split at h
  next => exact (Prod.mk.inj (Option.some.inj h)).2 ▸ Nat.le_refl _
  next =>
    split at h
    next =>
      obtain ⟨r, -, hr⟩ := Option.map_eq_some_iff.mp h
      rw [← (Prod.mk.inj hr).2, length_drop, length_cons]
      have := Nat.le_max_right r.2 1
      omega
    next =>
      split at h
      next => cases h
      next => exact (Prod.mk.inj (Option.some.inj h)).2 ▸ Nat.le_refl _

theorem length_goesOnFrom {comment newline : Bool} {s rest : List Char}
    (h : goesOnFrom comment newline s = some rest) : rest.length < s.length := by
  induction s generalizing comment newline with
  | nil => cases h
  | cons c s ih =>
    rw [goesOnFrom] at h
    split_ifs at h
    all_goals first
      | exact Nat.lt_succ_of_lt (ih h)
      | exact Option.some.inj h ▸ Nat.lt_succ_self _

/-- The rest of a PostgreSQL escape string after its opening quote: its value, and what follows
it. -/
def pgString (E : PgEscapes) : List Char → Option (List Char × List Char)
  | [] => none
  | c :: s =>
    if c = '\x00' then none
    else if c = '\\' then
      match s with
      | [] => none
      | d :: s =>
        match _h : E.read d s with
        | none => none
        | some (e, rest) => (pgString E rest).map fun r ↦ (e :: r.1, r.2)
    else if c = '\'' then
      if s.head? = some '\'' then (pgString E s.tail).map fun r ↦ ('\'' :: r.1, r.2)
      else
        match _h : goesOn s with
        | some rest => pgString E rest
        | none => some ([], s)
    else (pgString E s).map fun r ↦ (c :: r.1, r.2)
termination_by s => s.length
decreasing_by
  · exact Nat.lt_succ_of_le (Nat.le_succ_of_le (PgEscapes.length_read _h))
  · exact Nat.lt_succ_of_le (length_tail ▸ Nat.sub_le _ _)
  · exact Nat.lt_succ_of_lt (length_goesOnFrom _h)
  · exact Nat.lt_succ_self _

/-- Read a literal: its value, and what follows it. -/
def lexString (E : PgEscapes) : Backend → List Char → Option (List Char × List Char)
  | .sqlite, '\'' :: s => sqliteString s
  | .postgres, 'E' :: '\'' :: s => pgString E s
  | _, _ => none

/-! ## Reading a literal back -/

theorem sqliteString_quote_quote (s : List Char) :
    sqliteString ('\'' :: '\'' :: s) = (sqliteString s).map fun r ↦ ('\'' :: r.1, r.2) := by
  rw [sqliteString]
  rfl

theorem sqliteString_quote {s : List Char} (h : s.head? ≠ some '\'') :
    sqliteString ('\'' :: s) = some ([], s) := by
  unfold sqliteString
  rw [if_neg (by decide), if_pos rfl]
  split
  next => exact absurd rfl h
  next => rfl

theorem sqliteString_cons {c : Char} (hnul : c ≠ '\x00') (hquote : c ≠ '\'') (s : List Char) :
    sqliteString (c :: s) = (sqliteString s).map fun r ↦ (c :: r.1, r.2) := by
  conv_lhs => unfold sqliteString
  rw [if_neg hnul, if_neg hquote]

theorem sqliteString_replaceChar {s : List Char} (hnul : '\x00' ∉ s) {rest : List Char}
    (hrest : rest.head? ≠ some '\'') :
    sqliteString (replaceChar '\'' ['\'', '\''] s ++ '\'' :: rest) = some (s, rest) := by
  induction s with
  | nil => exact sqliteString_quote hrest
  | cons c s ih =>
    rw [mem_cons, not_or] at hnul
    have hstep : sqliteString (replaceChar '\'' ['\'', '\''] (c :: s) ++ '\'' :: rest) =
        (sqliteString (replaceChar '\'' ['\'', '\''] s ++ '\'' :: rest)).map
          fun r ↦ (c :: r.1, r.2) := by
      rw [replaceChar, flatMap_cons, append_assoc]
      by_cases hquote : c = '\''
      · rw [if_pos hquote, hquote]
        exact sqliteString_quote_quote _
      · rw [if_neg hquote]
        exact sqliteString_cons (Ne.symm hnul.1) hquote _
    rw [hstep, ih hnul.2]
    rfl

theorem pgString_backslash_backslash (E : PgEscapes) (s : List Char) :
    pgString E ('\\' :: '\\' :: s) = (pgString E s).map fun r ↦ ('\\' :: r.1, r.2) := by
  rw [pgString, if_neg (by decide), if_pos rfl]
  rfl

theorem pgString_quote_quote (E : PgEscapes) (s : List Char) :
    pgString E ('\'' :: '\'' :: s) = (pgString E s).map fun r ↦ ('\'' :: r.1, r.2) := by
  rw [pgString, if_neg (by decide), if_neg (by decide), if_pos rfl, List.head?_cons, if_pos rfl,
    tail_cons]

theorem pgString_quote (E : PgEscapes) {s : List Char} (h : s.head? ≠ some '\'')
    (hends : goesOn s = none) : pgString E ('\'' :: s) = some ([], s) := by
  unfold pgString
  rw [if_neg (by decide), if_neg (by decide), if_pos rfl, if_neg h]
  split
  next rest hrest =>
    rw [hends] at hrest
    cases hrest
  next => rfl

theorem pgString_cons (E : PgEscapes) {c : Char} (hnul : c ≠ '\x00') (hbackslash : c ≠ '\\')
    (hquote : c ≠ '\'') (s : List Char) :
    pgString E (c :: s) = (pgString E s).map fun r ↦ (c :: r.1, r.2) := by
  conv_lhs => unfold pgString
  rw [if_neg hnul, if_neg hbackslash, if_neg hquote]

theorem replaceChar_replaceChar (s : List Char) :
    replaceChar '\'' ['\'', '\''] (replaceChar '\\' ['\\', '\\'] s) =
      s.flatMap fun c ↦ if c = '\\' ∨ c = '\'' then [c, c] else [c] := by
  rw [replaceChar, replaceChar, flatMap_assoc]
  refine flatMap_congr fun c _ ↦ ?_
  by_cases hbackslash : c = '\\'
  · rw [if_pos hbackslash, if_pos (.inl hbackslash), hbackslash]
    rfl
  · rw [if_neg hbackslash, flatMap_singleton]
    by_cases hquote : c = '\''
    · rw [if_pos hquote, if_pos (.inr hquote), hquote]
    · rw [if_neg hquote, if_neg (not_or.mpr ⟨hbackslash, hquote⟩)]

theorem pgString_replaceChar (E : PgEscapes) {s : List Char} (hnul : '\x00' ∉ s) {rest : List Char}
    (hrest : rest.head? ≠ some '\'') (hends : goesOn rest = none) :
    pgString E (replaceChar '\'' ['\'', '\''] (replaceChar '\\' ['\\', '\\'] s) ++ '\'' :: rest) =
      some (s, rest) := by
  rw [replaceChar_replaceChar]
  induction s with
  | nil => exact pgString_quote E hrest hends
  | cons c s ih =>
    rw [mem_cons, not_or] at hnul
    rw [flatMap_cons, append_assoc]
    have hstep : ∀ t, pgString E ((if c = '\\' ∨ c = '\'' then [c, c] else [c]) ++ t) =
        (pgString E t).map fun r ↦ (c :: r.1, r.2) := by
      intro t
      by_cases hspecial : c = '\\' ∨ c = '\''
      · rw [if_pos hspecial]
        rcases hspecial with rfl | rfl
        · exact pgString_backslash_backslash E t
        · exact pgString_quote_quote E t
      · rw [if_neg hspecial]
        push Not at hspecial
        exact pgString_cons E (Ne.symm hnul.1) hspecial.1 hspecial.2 t
    rw [hstep, ih hnul.2]
    rfl

/-- Where a literal ends: no quote follows, nor a quote after white space and comments with a line
break. -/
def Ends (rest : List Char) : Prop := rest.head? ≠ some '\'' ∧ goesOn rest = none

theorem lexString_of_stringLiteral (E : PgEscapes) {backend : Backend} {s text : List Char}
    (htext : stringLiteral s backend = .ok text) {rest : List Char} (hrest : Ends rest) :
    lexString E backend (text ++ rest) = some (s, rest) := by
  unfold stringLiteral at htext
  split at htext
  next => cases htext
  next hnul =>
    cases backend with
    | sqlite =>
      rw [← Except.ok.inj htext, append_assoc]
      exact sqliteString_replaceChar hnul hrest.1
    | postgres =>
      rw [← Except.ok.inj htext, append_assoc]
      exact pgString_replaceChar E hnul hrest.1 hrest.2

/-- The literal of a string without NULs, written as a default of a column, is read back as the
string, to its last character and not beyond it. -/
theorem lexString_stringLiteral (E : PgEscapes) (isFinite : UInt64 → Bool)
    (showFloat : UInt64 → String) (backend : Backend) (s : String) (hnul : '\x00' ∉ s.toList) :
    ∃ text, stringLiteral s.toList backend = .ok text ∧
      defaultToSql isFinite showFloat (.value (.string s)) backend = .ok text ∧
      lexString E backend text = some (s.toList, []) ∧
      ∀ rest, Ends rest → lexString E backend (text ++ rest) = some (s.toList, rest) := by
  have hliteral : ∃ text, stringLiteral s.toList backend = .ok text := by
    cases backend with
    | sqlite => exact ⟨_, if_neg hnul⟩
    | postgres => exact ⟨_, if_neg hnul⟩
  obtain ⟨text, htext⟩ := hliteral
  have hwhole := lexString_of_stringLiteral E htext (⟨nofun, rfl⟩ : Ends [])
  rw [append_nil] at hwhole
  exact ⟨text, htext, htext, hwhole, fun _ ↦ lexString_of_stringLiteral E htext⟩

/-- A session in which no backslash may stand before a quote and no escape is numeric. -/
def plainEscapes : PgEscapes := ⟨false, fun _ ↦ none⟩

/-- A backslash before the closing quote. -/
theorem lexString_stringLiteral_backslash :
    ∃ text, stringLiteral "it's \\".toList .postgres = .ok text ∧
      defaultToSql (fun _ ↦ true) (fun _ ↦ "0") (.value (.string "it's \\")) .postgres = .ok text ∧
      lexString plainEscapes .postgres text = some ("it's \\".toList, []) ∧
      ∀ rest, Ends rest →
        lexString plainEscapes .postgres (text ++ rest) = some ("it's \\".toList, rest) :=
  lexString_stringLiteral plainEscapes (fun _ ↦ true) (fun _ ↦ "0") .postgres "it's \\" (by decide)

end WaferRun.Database
