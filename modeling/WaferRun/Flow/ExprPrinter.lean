import WaferRun.Flow.ExprComplete

/-!
# Printing expressions

An expression is printed with parentheses only where its level is looser than its place allows. The
printed text derives the expression, so the parser, which accepts every sentence, reads it back.

An array is printed by the JSON library. Of that no more is used than that what it writes, it reads
back, and that it writes an array between brackets.
-/

open List

namespace WaferRun

open Scanner Text

/-! ## Printing -/

def escapeLetter (c : Char) : Option Char :=
  if c = '"' then some '"'
  else if c = '\\' then some '\\'
  else if c = '\n' then some 'n'
  else if c = '\t' then some 't'
  else if c = '\r' then some 'r'
  else if c = '\x08' then some 'b'
  else if c = '\x0c' then some 'f'
  else none

def escapeChar (c : Char) : List Char :=
  match escapeLetter c with
  | some letter => ['\\', letter]
  | none =>
    if c.toNat < 0x20 then
      ['\\', 'u', '0', '0', (c.toNat / 16).digitChar, (c.toNat % 16).digitChar]
    else [c]

def printString (s : String) : List Char := '"' :: (s.toList.flatMap escapeChar ++ ['"'])

def printPath (segments : List String) : List Char :=
  "$.".toList ++ ['.'].intercalate (segments.map String.toList)

section Print

variable (toText : Json → List Char)

/-- Write a literal; `toText` writes what is neither a constant, an integer nor a string. -/
def printLiteral : Json → List Char
  | .null => "null".toList
  | .bool true => "true".toList
  | .bool false => "false".toList
  | .number (.posInt n) => Nat.toDigits 10 n
  | .number (.negInt n) => '-' :: Nat.toDigits 10 n
  | .string s => printString s
  | v => toText v

def Level.rank : Level → ℕ
  | .operand => 0
  | .comparison => 1
  | .conjunction => 2
  | .disjunction => 3

/-- Put a text of a level where `limit` is allowed. -/
def parenthesise (limit level : Level) (t : List Char) : List Char :=
  if level.rank ≤ limit.rank then t else '(' :: (t ++ [')'])

def spaced (token : String) : List Char := [' '] ++ token.toList ++ [' ']

def printAt : Level → Expr → List Char
  | _, .path segments => printPath segments
  | _, .literal v => printLiteral toText v
  | limit, .compare left op right =>
    parenthesise limit .comparison
      (printAt .operand left ++ spaced op.asStr ++ printAt .operand right)
  | limit, .membership value op list =>
    parenthesise limit .comparison
      (printAt .operand value ++ spaced op.asStr ++ printAt .operand list)
  | limit, .logical left .and right =>
    parenthesise limit .conjunction
      (printAt .conjunction left ++ spaced LogicalOp.and.asStr ++ printAt .comparison right)
  | limit, .logical left .or right =>
    parenthesise limit .disjunction
      (printAt .disjunction left ++ spaced LogicalOp.or.asStr ++ printAt .conjunction right)

def printExpr (e : Expr) : List Char := printAt toText .disjunction e

end Print

/-! ## What is printed -/

def isIdentChar (c : Char) : Bool := c.isAlphanum || c = '_' || c = '-'

def IsIdentifier (s : String) : Prop := s.toList ≠ [] ∧ ∀ c ∈ s.toList, isIdentChar c = true

inductive IsLiteral : Json → Prop
  | null : IsLiteral .null
  | bool (b) : IsLiteral (.bool b)
  | int {n : ℤ} (h : -2 ^ 63 ≤ n ∧ n < 2 ^ 63) : IsLiteral (.number (.ofI64 n))
  | string (s) : IsLiteral (.string s)
  | array (items) : IsLiteral (.array items)

inductive Printable : Expr → Prop
  | path {segments} (h0 : segments ≠ []) (h : ∀ s ∈ segments, IsIdentifier s) :
      Printable (.path segments)
  | literal {v} (h : IsLiteral v) : Printable (.literal v)
  | compare {l r} (op) (hl : Printable l) (hr : Printable r) : Printable (.compare l op r)
  | logical {l r} (op) (hl : Printable l) (hr : Printable r) : Printable (.logical l op r)
  | membership {l r} (op) (hl : Printable l) (hr : Printable r) : Printable (.membership l op r)

def Expr.arrays : Expr → List (List Json)
  | .path _ => []
  | .literal (.array items) => [items]
  | .literal _ => []
  | .compare left _ right => left.arrays ++ right.arrays
  | .logical left _ right => left.arrays ++ right.arrays
  | .membership value _ list => value.arrays ++ list.arrays

/-- The JSON library writes an array between brackets and reads back what it has written. -/
def RoundTrips (J : JsonReader) (toText : Json → List Char) (items : List Json) : Prop :=
  ∃ body, toText (.array items) = '[' :: (body ++ [']']) ∧
    J.fromStr (toText (.array items)) = some (.array items)

/-! ## Strings -/

theorem escapeAfter_append (q : Char) (e : Bool) (u v : List Char) :
    escapeAfter q e (u ++ v) = (escapeAfter q e u).bind fun e' ↦ escapeAfter q e' v := by
  induction u generalizing e with
  | nil => rfl
  | cons c u ih =>
    rw [cons_append, escapeAfter, escapeAfter]
    split
    · rfl
    · exact ih _

theorem hexDigit_digitChar {n : ℕ} (h : n < 16) : hexDigit n.digitChar = some n := by
  have hall : ∀ n < 16, hexDigit n.digitChar = some n := by decide
  exact hall n h

theorem readHex_of_lt {n : ℕ} (h : n < 0x20) (s : List Char) :
    readHex 4 0 (['0', '0', (n / 16).digitChar, (n % 16).digitChar] ++ s) = .ok (n, s) := by
  have hzero : hexDigit '0' = some 0 := by decide
  have hhigh := hexDigit_digitChar (n := n / 16) (by omega)
  have hlow := hexDigit_digitChar (n := n % 16) (by omega)
  have hn : ((0 * 16 + 0) * 16 + 0) * 16 + n / 16 = n / 16 := by omega
  have hn' : n / 16 * 16 + n % 16 = n := by omega
  simp only [cons_append, nil_append, readHex, hzero, hhigh, hlow, hn, hn']

theorem simpleEscape_of_escapeLetter {c letter : Char} (h : escapeLetter c = some letter) :
    simpleEscape letter = some c := by
  unfold escapeLetter at h
  split_ifs at h with h1 h2 h3 h4 h5 h6 h7
  all_goals
    obtain rfl := Option.some.inj h
    subst c
    decide

theorem escapeChar_spec (c : Char) :
    escapeAfter '"' false (escapeChar c) = some false ∧
      ∀ s, unescapeFrom (escapeChar c ++ s) = (unescapeFrom s).map (c :: ·) := by
  unfold escapeChar
  split
  · -- a letter after a backslash
    rename_i letter hletter
    exact ⟨by simp [escapeAfter], fun s ↦
      unescapeFrom_simple (simpleEscape_of_escapeLetter hletter) s⟩
  · rename_i hletter
    split
    · -- a number after a backslash
      rename_i hlt
      have hdigit : ∀ n < 0x20, escapeAfter '"' false
          ['\\', 'u', '0', '0', (n / 16).digitChar, (n % 16).digitChar] = some false := by decide
      refine ⟨hdigit _ hlt, fun s ↦ ?_⟩
      exact unescapeFrom_unicode (readHex_of_lt hlt s) c.valid
    · -- the character itself
      have hquote : c ≠ '"' := by
        rintro rfl
        exact absurd hletter (by decide)
      have hbackslash : c ≠ '\\' := by
        rintro rfl
        exact absurd hletter (by decide)
      exact ⟨by simp [escapeAfter, hquote, hbackslash], unescapeFrom_cons hbackslash⟩

theorem printString_spec (s : String) :
    Sealed '"' (s.toList.flatMap escapeChar) ∧
      unescapeStringLiteral (s.toList.flatMap escapeChar) = .ok s := by
  have hall : ∀ t : List Char, Sealed '"' (t.flatMap escapeChar) ∧
      unescapeFrom (t.flatMap escapeChar) = .ok t := by
    intro t
    induction t with
    | nil => exact ⟨rfl, by rw [flatMap_nil, unescapeFrom]⟩
    | cons c t ih =>
      obtain ⟨hsealed, hread⟩ := escapeChar_spec c
      constructor
      · rw [Sealed, flatMap_cons, escapeAfter_append, hsealed]
        exact ih.1
      · rw [flatMap_cons, hread, ih.2]
        rfl
  refine ⟨(hall s.toList).1, ?_⟩
  rw [unescapeStringLiteral_eq, (hall s.toList).2]
  exact congrArg Except.ok String.ofList_toList

/-! ## Paths -/

def isPathChar (c : Char) : Bool := isIdentChar c || c = '.' || c = '$'

theorem not_isWhiteSpace_of_isPathChar {c : Char} (h : isPathChar c = true) :
    isWhiteSpace c = false := by
  have hrange : 36 ≤ c.toNat ∧ c.toNat ≤ 122 := by
    simp only [isPathChar, isIdentChar, Char.isAlphanum, Char.isAlpha, Char.isUpper, Char.isLower,
      Char.isDigit, Bool.or_eq_true, Bool.and_eq_true, decide_eq_true_eq, ge_iff_le,
      UInt32.le_iff_toNat_le] at h
    rcases h with (((((⟨h₁, h₂⟩ | ⟨h₁, h₂⟩) | ⟨h₁, h₂⟩) | rfl) | rfl) | rfl) | rfl
    · exact ⟨le_trans (by decide : 36 ≤ 'A'.toNat) h₁, le_trans h₂ (by decide : 'Z'.toNat ≤ 122)⟩
    · exact ⟨le_trans (by decide : 36 ≤ 'a'.toNat) h₁, le_trans h₂ (by decide : 'z'.toNat ≤ 122)⟩
    · exact ⟨le_trans (by decide : 36 ≤ '0'.toNat) h₁, le_trans h₂ (by decide : '9'.toNat ≤ 122)⟩
    all_goals decide
  simp only [isWhiteSpace, Bool.or_eq_false_iff, Bool.and_eq_false_iff, decide_eq_false_iff_not]
  omega

theorem not_isAsciiWhitespace_of_isPathChar {c : Char} (h : isPathChar c = true) :
    isAsciiWhitespace c = false := by
  have hnot : c ∉ [' ', '\t', '\n', '\x0c', '\r'] := notMem_of_class (by decide) h
  simpa [isAsciiWhitespace] using hnot

theorem forall_mem_intercalate {P : Char → Prop} {sep : List Char} (hsep : ∀ c ∈ sep, P c)
    {l : List (List Char)} (hl : ∀ x ∈ l, ∀ c ∈ x, P c) : ∀ c ∈ sep.intercalate l, P c := by
  induction l with
  | nil => exact fun c hc ↦ absurd hc (by simp)
  | cons x l ih =>
    have hx := hl x mem_cons_self
    cases l with
    | nil => simpa using hx
    | cons y l =>
      intro c hc
      rw [intercalate_cons_cons, append_assoc, mem_append, mem_append] at hc
      rcases hc with hc | hc | hc
      · exact hx c hc
      · exact hsep c hc
      · exact ih (fun z hz ↦ hl z (mem_cons_of_mem x hz)) c hc

theorem forall_isPathChar_printPath {segments : List String}
    (h : ∀ s ∈ segments, IsIdentifier s) : ∀ c ∈ printPath segments, isPathChar c = true := by
  intro c hc
  rw [printPath, mem_append] at hc
  rcases hc with hc | hc
  · have hall : ∀ c ∈ "$.".toList, isPathChar c = true := by decide
    exact hall c hc
  · have hdot : ∀ c ∈ ['.'], isPathChar c = true := by decide
    refine forall_mem_intercalate hdot (fun x hx ↦ ?_) c hc
    obtain ⟨s, hs, rfl⟩ := mem_map.mp hx
    intro d hd
    simp [isPathChar, (h s hs).2 d hd]

theorem parsePath_printPath {segments : List String} (h0 : segments ≠ [])
    (h : ∀ s ∈ segments, IsIdentifier s) : parsePath (printPath segments) = .ok segments := by
  have hdot : ∀ x ∈ segments.map String.toList, '.' ∉ x := by
    intro x hx
    obtain ⟨s, hs, rfl⟩ := mem_map.mp hx
    exact fun hmem ↦ absurd ((h s hs).2 '.' hmem) (by decide)
  have hsplit := splitOn_intercalate '.' hdot (by simpa using h0)
  have hsegments : [] ∉ segments.map String.toList := by
    intro hmem
    obtain ⟨s, hs, hnil⟩ := mem_map.mp hmem
    exact (h s hs).1 hnil
  have hrest : ['.'].intercalate (segments.map String.toList) ≠ [] := by
    intro hnil
    rw [hnil] at hsplit
    rw [← hsplit] at hsegments
    exact hsegments (by simp)
  have hstarts : "$.".toList.isPrefixOf (printPath segments) = true := by
    rw [List.isPrefixOf_iff_prefix]
    exact prefix_append _ _
  have hdrop : (printPath segments).drop 2 = ['.'].intercalate (segments.map String.toList) :=
    List.drop_left' rfl
  rw [parsePath, if_neg (by rw [hstarts]; simp)]
  simp only [hdrop, if_neg hrest, hsplit, if_neg hsegments, map_map]
  exact congrArg Except.ok (by simp [Function.comp_def, String.ofList_toList])

theorem isTidy_of_isPathChar {t : List Char} (h : ∀ c ∈ t, isPathChar c = true)
    (hhead : t.head? = some '$') : IsTidy t where
  plain c hc := isPlain_of_class (by decide) (h c hc)
  noOperator token htoken hinside := by
    have hfirst : ∀ token ∈ operatorTokens, ∃ c ∈ ['&', '|', '=', '!', '>', '<'], c ∈ token := by
      decide
    obtain ⟨c, hc, hctoken⟩ := hfirst token htoken
    have hpath := h c (hinside.subset hctoken)
    exact notMem_of_class (by decide) hpath hc
  noKeyword := by
    rw [← unkeyed_iff]
    intro p hp
    obtain ⟨u, c, v, rfl, rfl, -, -⟩ := exists_of_mem_positions hp
    rw [← Bool.not_eq_true]
    intro hat
    simp only [keywordAt, Bool.and_eq_true, isPrefixOf_iff_prefix, List.head?_reverse] at hat
    obtain ⟨⟨hpre, hbefore⟩, -⟩ := hat
    rcases eq_nil_or_concat u with rfl | ⟨w, d, rfl⟩
    · -- the first character is no letter
      obtain rfl := Option.some.inj hhead
      exact absurd (cons_prefix_cons.mp hpre).1 (by decide)
    · -- no white space stands before another
      rw [concat_eq_append] at hbefore h
      rw [List.getLast?_concat] at hbefore
      have hd := not_isAsciiWhitespace_of_isPathChar (h d (by simp))
      exact absurd hbefore (by rw [Option.all_some, hd]; exact Bool.false_ne_true)

/-! ## Derivations of what is printed -/

theorem EndsInNot.getLast? {t : List Char} (h : EndsInNot t) : t.getLast? = some 't' := by
  obtain ⟨u, rfl, -⟩ := h
  rw [List.getLast?_append]
  rfl

/-- A text that is written for an operand: it is one, and it does not end in the word `not`. -/
structure WritesOperand (J : JsonReader) (t : List Char) (e : Expr) : Prop where
  derives : Derives J .operand t e
  border : ¬EndsInNot t

section Writes

variable {J : JsonReader}

theorem trimmed_of_isPathChar {t : List Char} (h : ∀ c ∈ t, isPathChar c = true) : Trimmed t :=
  ⟨fun c hc ↦ not_isWhiteSpace_of_isPathChar (h c (List.mem_of_mem_head? hc)),
    fun c hc ↦ not_isWhiteSpace_of_isPathChar (h c (List.mem_of_getLast? hc))⟩

theorem writesOperand_path {segments : List String} (h0 : segments ≠ [])
    (h : ∀ s ∈ segments, IsIdentifier s) :
    WritesOperand J (printPath segments) (.path segments) := by
  have hchars := forall_isPathChar_printPath h
  refine ⟨.path (parsePath_printPath h0 h) (isTidy_of_isPathChar hchars rfl)
    (trimmed_of_isPathChar hchars), ?_⟩
  rintro ⟨u, hu, hlast⟩
  rcases eq_nil_or_concat u with rfl | ⟨w, d, rfl⟩
  · exact absurd (cons.inj hu).1 (by decide)
  · -- no white space stands in a path
    rw [concat_eq_append] at hu hlast
    rw [List.getLast?_concat, Option.all_some] at hlast
    have hd := not_isAsciiWhitespace_of_isPathChar (hchars d (by rw [hu]; simp))
    exact absurd hlast (by rw [hd]; exact Bool.false_ne_true)

theorem parseI64_digits {n : ℕ} (h : (n : ℤ) < 2 ^ 63) :
    parseI64 (Nat.toDigits 10 n) = some (n : ℤ) := by
  have hdigit : ∀ c ∈ Nat.toDigits 10 n, c.isDigit = true :=
    fun c hc ↦ Nat.isDigit_of_mem_toDigits (by decide) (by decide) hc
  obtain ⟨c, t, ht⟩ := exists_cons_of_ne_nil (Nat.toDigits_ne_nil (n := n) (b := 10))
  have hsign : splitSign (Nat.toDigits 10 n) = (false, Nat.toDigits 10 n) := by
    have hc : c ∉ ['-', '+'] := by
      refine notMem_of_class (p := Char.isDigit) (by decide) (hdigit c (by rw [ht]; simp))
    simp only [mem_cons, not_mem_nil, or_false, not_or] at hc
    rw [ht]
    simp [splitSign, hc.1, hc.2]
  have hne : ¬(Nat.toDigits 10 n = [] ∨ ¬(Nat.toDigits 10 n).all Char.isDigit = true) := by
    rw [ht, not_or, not_not, all_eq_true, ← ht]
    exact ⟨by simp [ht], hdigit⟩
  simp only [parseI64, hsign, if_neg hne, Nat.ofDigitChars_ten_toDigits, Bool.false_eq_true,
    if_false]
  rw [if_pos ⟨by omega, h⟩]

theorem parseI64_neg_digits {n : ℕ} (h : n ≤ 2 ^ 63) :
    parseI64 ('-' :: Nat.toDigits 10 n) = some (-(n : ℤ)) := by
  have hdigit : ∀ c ∈ Nat.toDigits 10 n, c.isDigit = true :=
    fun c hc ↦ Nat.isDigit_of_mem_toDigits (by decide) (by decide) hc
  have hne : ¬(Nat.toDigits 10 n = [] ∨ ¬(Nat.toDigits 10 n).all Char.isDigit = true) := by
    rw [not_or, not_not, all_eq_true]
    exact ⟨Nat.toDigits_ne_nil, hdigit⟩
  have hsign : splitSign ('-' :: Nat.toDigits 10 n) = (true, Nat.toDigits 10 n) := rfl
  simp only [parseI64, hsign, if_neg hne, Nat.ofDigitChars_ten_toDigits, if_true]
  rw [if_pos ⟨by omega, by omega⟩]

theorem parseScalar_of_parseI64 {t : List Char} {n : ℤ} (h : parseI64 t = some n) :
    parseScalar J t = some (.number (.ofI64 n)) := by
  have hne : ∀ s : String, parseI64 s.toList = none → t ≠ s.toList := by
    rintro s hs rfl
    exact absurd (hs.symm.trans h) (by simp)
  rw [parseScalar, if_neg (hne "true" (by decide)), if_neg (hne "false" (by decide)),
    if_neg (hne "null" (by decide)), h]

theorem isPathChar_of_isDigit {c : Char} (h : c.isDigit = true) : isPathChar c = true := by
  simp [isPathChar, isIdentChar, Char.isAlphanum, h]

theorem writesOperand_scalar {t : List Char} {v : Json} (hread : parseScalar J t = some v)
    (htrim : Trimmed t) (hlast : t.getLast? ≠ some 't') : WritesOperand J t (.literal v) :=
  ⟨.scalar hread htrim, fun h ↦ hlast h.getLast?⟩

theorem writesOperand_constant {s : String} {v : Json} (hs : s ∈ ["null", "true", "false"])
    (hread : parseScalar J s.toList = some v) : WritesOperand J s.toList (.literal v) := by
  have hall : ∀ s ∈ ["null", "true", "false"],
      (∀ c ∈ s.toList, isPathChar c = true) ∧ s.toList.getLast? ≠ some 't' := by decide
  obtain ⟨hpath, hlast⟩ := hall s hs
  exact writesOperand_scalar hread (trimmed_of_isPathChar hpath) hlast

theorem writesOperand_int {t : List Char} {n : ℤ} (hread : parseI64 t = some n)
    (hchars : ∀ c ∈ t, c = '-' ∨ c.isDigit = true) :
    WritesOperand J t (.literal (.number (.ofI64 n))) := by
  have hpath : ∀ c ∈ t, isPathChar c = true := by
    intro c hc
    rcases hchars c hc with rfl | hdigit
    · decide
    · exact isPathChar_of_isDigit hdigit
  refine writesOperand_scalar (parseScalar_of_parseI64 hread) (trimmed_of_isPathChar hpath) ?_
  intro hlast
  rcases hchars 't' (List.mem_of_getLast? hlast) with h | h
  · exact absurd h (by decide)
  · exact absurd h (by decide)

theorem writesOperand_string (s : String) :
    WritesOperand J (printString s) (.literal (.string s)) := by
  obtain ⟨hsealed, hvalue⟩ := printString_spec s
  refine ⟨.string (by decide) hsealed hvalue, fun h ↦ ?_⟩
  have hlast := h.getLast?
  rw [printString, ← cons_append, List.getLast?_concat] at hlast
  exact absurd hlast (by decide)

theorem writesOperand_array {body : List Char} {v : Json}
    (hread : J.fromStr ('[' :: (body ++ [']'])) = some v) :
    WritesOperand J ('[' :: (body ++ [']'])) (.literal v) := by
  have hlast : ('[' :: (body ++ [']'])).getLast? = some ']' := by
    rw [← cons_append, List.getLast?_concat]
  have hne : ∀ s : String, s.toList.head? ≠ some '[' → '[' :: (body ++ [']']) ≠ s.toList := by
    intro s hs heq
    exact hs (by rw [← heq]; rfl)
  -- a text that starts with a bracket is no number
  have hsign : splitSign ('[' :: (body ++ [']'])) = (false, '[' :: (body ++ [']'])) := rfl
  have hdigit : Char.isDigit '[' = false := by decide
  have hi64 : parseI64 ('[' :: (body ++ [']'])) = none := by simp [parseI64, hsign, hdigit]
  have hf64 : parseF64 ('[' :: (body ++ [']'])) = none := by
    simp [parseF64, hsign, hdigit, splitFraction]
  refine writesOperand_scalar ?_ (trimmed_enclosed (by decide) (by decide) body)
    (by rw [hlast]; decide)
  rw [parseScalar, if_neg (hne "true" (by decide)), if_neg (hne "false" (by decide)),
    if_neg (hne "null" (by decide)), hi64, hf64]
  simp only [List.head?_cons, hlast, and_self, if_true, hread]

theorem Derives.loosen {level limit : Level} {t : List Char} {e : Expr} (h : Derives J level t e)
    (hle : level.rank ≤ limit.rank) : Derives J limit t e := by
  have hcomparison : Derives J .operand t e → Derives J .comparison t e := .ofOperand
  have hconjunction : Derives J .comparison t e → Derives J .conjunction t e := .ofComparison
  have hdisjunction : Derives J .conjunction t e → Derives J .disjunction t e := .ofConjunction
  cases level <;> cases limit <;> simp only [Level.rank] at hle
  all_goals first | exact h | tauto

theorem derives_parenthesise {level : Level} {t : List Char} {e : Expr} (h : Derives J level t e)
    (limit : Level) : Derives J limit (parenthesise limit level t) e := by
  rw [parenthesise]
  split
  · rename_i hle
    exact h.loosen hle
  · have hblank : Blank [] := fun c hc ↦ absurd hc not_mem_nil
    have hgroup : Derives J .operand ('(' :: ([] ++ t ++ [] ++ [')'])) e :=
      .group hblank hblank (h.loosen (by cases level <;> decide))
    rw [nil_append, append_nil] at hgroup
    exact hgroup.loosen (Nat.zero_le _)

theorem writesOperand_parenthesise {level : Level} {t : List Char} {e : Expr}
    (h : Derives J level t e) (hlevel : level ≠ .operand) :
    WritesOperand J (parenthesise .operand level t) e := by
  refine ⟨derives_parenthesise h .operand, fun hends ↦ ?_⟩
  have hlast := hends.getLast?
  have hrank : ¬level.rank ≤ Level.operand.rank := by
    cases level
    · exact absurd rfl hlevel
    all_goals decide
  rw [parenthesise, if_neg hrank, ← cons_append, List.getLast?_concat] at hlast
  exact absurd hlast (by decide)

theorem blank_space : Blank [' '] := fun c hc ↦ by
  rw [mem_singleton.mp hc]
  decide

section Printed

variable {toText : Json → List Char}

theorem writesOperand_literal {v : Json} (h : IsLiteral v)
    (harrays : ∀ items ∈ (Expr.literal v).arrays, RoundTrips J toText items) :
    WritesOperand J (printLiteral toText v) (.literal v) := by
  cases h with
  | null => exact writesOperand_constant (s := "null") (by decide) (by rfl)
  | bool b =>
    cases b with
    | false => exact writesOperand_constant (s := "false") (by decide) (by rfl)
    | true => exact writesOperand_constant (s := "true") (by decide) (by rfl)
  | @int n h =>
    have hdigit : ∀ m, ∀ c ∈ Nat.toDigits 10 m, c.isDigit = true :=
      fun m c hc ↦ Nat.isDigit_of_mem_toDigits (by decide) (by decide) hc
    have hchars : ∀ m, ∀ c ∈ '-' :: Nat.toDigits 10 m, c = '-' ∨ c.isDigit = true :=
      fun m c hc ↦ (mem_cons.mp hc).imp id (hdigit m c)
    by_cases hn : n < 0
    · have hread := parseI64_neg_digits (n := n.natAbs) (by omega)
      rw [show -(n.natAbs : ℤ) = n by omega] at hread
      have hwrite := writesOperand_int (J := J) hread (hchars _)
      rw [JsonNumber.ofI64, if_pos hn] at hwrite ⊢
      exact hwrite
    · have hread := parseI64_digits (n := n.natAbs) (by omega)
      rw [show (n.natAbs : ℤ) = n by omega] at hread
      have hwrite := writesOperand_int (J := J) hread fun c hc ↦ .inr (hdigit _ c hc)
      rw [JsonNumber.ofI64, if_neg hn] at hwrite ⊢
      exact hwrite
  | string s => exact writesOperand_string s
  | array items =>
    obtain ⟨body, hbody, hread⟩ := harrays items (by simp [Expr.arrays])
    rw [hbody] at hread
    have hwrite := writesOperand_array hread
    rw [← hbody] at hwrite
    exact hwrite

/-- What is printed where a level is allowed derives the expression at that level. -/
theorem derives_printAt {e : Expr} (h : Printable e)
    (harrays : ∀ items ∈ e.arrays, RoundTrips J toText items) :
    (∀ limit, Derives J limit (printAt toText limit e) e) ∧
      WritesOperand J (printAt toText .operand e) e := by
  have hoperand : ∀ {t e}, WritesOperand J t e → ∀ limit, Derives J limit t e :=
    fun hwrites limit ↦ hwrites.derives.loosen (Nat.zero_le _)
  induction h with
  | path h0 h =>
    have hwrites := writesOperand_path (J := J) h0 h
    exact ⟨hoperand hwrites, hwrites⟩
  | literal h =>
    have hwrites := writesOperand_literal h harrays
    exact ⟨hoperand hwrites, hwrites⟩
  | compare op _ _ ihl ihr =>
    specialize ihl fun items h ↦ harrays items (mem_append_left _ h)
    specialize ihr fun items h ↦ harrays items (mem_append_right _ h)
    have hd := Derives.compare op (ihl.1 .operand) (ihr.1 .operand) blank_space blank_space
      fun _ h ↦ absurd h (by simp)
    exact ⟨fun limit ↦ derives_parenthesise hd limit, writesOperand_parenthesise hd (by simp)⟩
  | membership op _ _ ihl ihr =>
    specialize ihl fun items h ↦ harrays items (mem_append_left _ h)
    specialize ihr fun items h ↦ harrays items (mem_append_right _ h)
    have hspace : isAsciiWhitespace ' ' = true := by decide
    have hd := Derives.membership op (ihl.1 .operand) (ihr.1 .operand) blank_space blank_space
      ⟨' ', rfl, hspace⟩ ⟨' ', rfl, hspace⟩ fun _ _ ↦ ihl.2.border
    exact ⟨fun limit ↦ derives_parenthesise hd limit, writesOperand_parenthesise hd (by simp)⟩
  | logical op _ _ ihl ihr =>
    specialize ihl fun items h ↦ harrays items (mem_append_left _ h)
    specialize ihr fun items h ↦ harrays items (mem_append_right _ h)
    cases op with
    | and =>
      have hd := Derives.and (ihl.1 .conjunction) (ihr.1 .comparison) blank_space blank_space
      exact ⟨fun limit ↦ derives_parenthesise hd limit, writesOperand_parenthesise hd (by simp)⟩
    | or =>
      have hd := Derives.or (ihl.1 .disjunction) (ihr.1 .conjunction) blank_space blank_space
      exact ⟨fun limit ↦ derives_parenthesise hd limit, writesOperand_parenthesise hd (by simp)⟩

/-- The parser reads back what is printed. -/
theorem parseExpr_printExpr {e : Expr} (h : Printable e)
    (harrays : ∀ items ∈ e.arrays, RoundTrips J toText items) :
    parseExpr J (printExpr toText e) = .ok e :=
  parseExpr_of_derives ((derives_printAt h harrays).1 .disjunction)

end Printed

end Writes

def readOnes (s : List Char) : Option Json :=
  if s = "[1,1]".toList then some (.array [.number (.posInt 1), .number (.posInt 1)]) else none

def JsonReader.ones : JsonReader where
  fromStr := readOnes
  shaped h := by
    unfold readOnes at h
    split_ifs at h with hs
    rw [hs]
    exact jsonShaped_of_forall (by decide)

theorem parseExpr_printExpr_membership :
    parseExpr .ones (printExpr (fun _ ↦ "[1,1]".toList)
        (.logical (.logical (.path ["a"]) .or (.literal (.string "\" && '")))
          .and (.membership (.path ["b", "c-1"]) .notIn
            (.literal (.array [.number (.posInt 1), .number (.posInt 1)]))))) =
      .ok (.logical (.logical (.path ["a"]) .or (.literal (.string "\" && '")))
        .and (.membership (.path ["b", "c-1"]) .notIn
          (.literal (.array [.number (.posInt 1), .number (.posInt 1)])))) := by
  have hident : ∀ s ∈ ["a", "b", "c-1"], s.toList ≠ [] ∧ ∀ c ∈ s.toList, isIdentChar c = true := by
    decide
  refine parseExpr_printExpr ?_ fun items hitems ↦ ?_
  · refine .logical _ (.logical _ (.path (by simp) ?_) (.literal (.string _)))
      (.membership _ (.path (by simp) ?_) (.literal (.array _)))
    · exact fun s hs ↦ hident s (by simp at hs ⊢; tauto)
    · exact fun s hs ↦ hident s (by simp at hs ⊢; tauto)
  · obtain rfl := mem_singleton.mp hitems
    exact ⟨"1,1".toList, rfl, rfl⟩

/-- How the parentheses fall. -/
example :
    printExpr (fun _ ↦ []) (.logical (.path ["a"]) .or
      (.logical (.logical (.path ["b"]) .or (.path ["c"])) .and
        (.compare (.compare (.path ["d"]) .eq (.literal .null)) .ne (.literal (.bool true))))) =
      "$.a || ($.b || $.c) && ($.d == null) != true".toList := by rfl

end WaferRun
