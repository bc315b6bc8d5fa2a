import Mathlib
import WaferRun.Flow.Plan
import WaferRun.Lib.Scanner

/-!
# Paths and literals of expressions

The pieces of an expression that have no operators: a path into the accumulator, and the literals,
which are strings, the three constants, numbers and JSON arrays.

A path and a literal are read from a whole text, not from the start of one. What a JSON array is,
the JSON library decides; of it the parser relies on no more than the characters that a JSON text
has outside of its strings.
-/

open List

namespace WaferRun

open Scanner Text

inductive ExprError
  | invalidPath (reason : String)
  | parse (reason : String)
deriving DecidableEq, Repr

/-- Read a path `$.a.b`. -/
def parsePath (s : List Char) : Except ExprError (List String) :=
  if ¬"$.".toList.isPrefixOf s then
    .error (.invalidPath ("path must start with '$.' but got '" ++ String.ofList s ++ "'"))
  else
    let rest := s.drop 2
    if rest = [] then
      .error (.invalidPath "path must have at least one segment after '$.'")
    else
      let segments := rest.splitOn '.'
      if [] ∈ segments then
        .error (.invalidPath ("empty segment in path '" ++ String.ofList s ++ "'"))
      else .ok (segments.map String.ofList)

/-! ## Strings -/

def hexDigit (c : Char) : Option ℕ :=
  if '0' ≤ c ∧ c ≤ '9' then some (c.toNat - '0'.toNat)
  else if 'a' ≤ c ∧ c ≤ 'f' then some (c.toNat - 'a'.toNat + 10)
  else if 'A' ≤ c ∧ c ≤ 'F' then some (c.toNat - 'A'.toNat + 10)
  else none

/-- Read a number of hexadecimal digits after those that gave `code`. -/
def readHex : ℕ → ℕ → List Char → Except ExprError (ℕ × List Char)
  | 0, code, s => .ok (code, s)
  | _ + 1, _, [] => .error (.parse "incomplete \\u escape in string literal")
  | n + 1, code, h :: s =>
    match hexDigit h with
    | none => .error (.parse ("invalid hex digit '" ++ h.toString ++ "' in \\u escape"))
    | some digit => readHex n (code * 16 + digit) s

/-- The number in hexadecimal, with four digits at least. -/
def hex4 (n : ℕ) : String :=
  let digits := (Nat.toDigits 16 n).map Char.toUpper
  String.ofList (List.replicate (4 - digits.length) '0' ++ digits)

def simpleEscape (c : Char) : Option Char :=
  if c = 'n' then some '\n'
  else if c = 't' then some '\t'
  else if c = 'r' then some '\r'
  else if c = 'b' then some '\x08'
  else if c = 'f' then some '\x0c'
  else if c = '"' ∨ c = '\'' ∨ c = '\\' ∨ c = '/' then some c
  else none

theorem length_of_readHex {n code : ℕ} {s : List Char} {r : ℕ × List Char}
    (h : readHex n code s = .ok r) : r.2.length + n = s.length := by
  induction n generalizing code s with
  | zero =>
    rw [← Except.ok.inj h]
    rfl
  | succ n ih =>
    cases s with
    | nil => exact absurd h (by simp [readHex])
    | cons c s =>
      rw [readHex] at h
      split at h
      · exact absurd h (by simp)
      · have := ih h
        simp only [length_cons]
        omega

/-- Read the inside of a string literal. -/
def unescapeFrom : List Char → Except ExprError (List Char)
  | [] => .ok []
  | c :: s =>
    if c ≠ '\\' then (unescapeFrom s).map (c :: ·)
    else
      match s with
      | [] => .error (.parse "trailing backslash in string literal")
      | esc :: s =>
        match simpleEscape esc with
        | some d => (unescapeFrom s).map (d :: ·)
        | none =>
          if esc = 'u' then
            match _h : readHex 4 0 s with
            | .error e => .error e
            | .ok (code, rest) =>
              -- the surrogates are not characters
              if hcode : code.isValidChar then
                (unescapeFrom rest).map (Char.ofNatAux code hcode :: ·)
              else .error (.parse ("invalid unicode code point U+" ++ hex4 code))
          else
            .error (.parse ("unknown escape sequence '\\" ++ esc.toString ++
              "' in string literal"))
termination_by s => s.length
decreasing_by
  all_goals simp_wf
  have := length_of_readHex _h
  simp only at this
  omega

def unescapeStringLiteral (inner : List Char) : Except ExprError String :=
  if '\\' ∉ inner then .ok (String.ofList inner)
  else (unescapeFrom inner).map String.ofList

theorem unescapeFrom_cons {c : Char} (hc : c ≠ '\\') (s : List Char) :
    unescapeFrom (c :: s) = (unescapeFrom s).map (c :: ·) := by
  rw [unescapeFrom.eq_def]
  simp only [if_pos hc]

theorem unescapeFrom_simple {esc d : Char} (h : simpleEscape esc = some d) (s : List Char) :
    unescapeFrom ('\\' :: esc :: s) = (unescapeFrom s).map (d :: ·) := by
  rw [unescapeFrom.eq_def]
  dsimp only
  rw [if_neg (not_not.mpr rfl), h]

theorem unescapeFrom_unicode {code : ℕ} {s rest : List Char} (h : readHex 4 0 s = .ok (code, rest))
    (hcode : code.isValidChar) :
    unescapeFrom ('\\' :: 'u' :: s) =
      (unescapeFrom rest).map (Char.ofNatAux code hcode :: ·) := by
  have hsimple : simpleEscape 'u' = none := by decide
  rw [unescapeFrom.eq_def]
  dsimp only
  rw [if_neg (not_not.mpr rfl), hsimple]
  dsimp only
  rw [if_pos rfl]
  split
  · rename_i herr
    exact absurd (h.symm.trans herr) (by simp)
  · rename_i code' rest' hok
    obtain ⟨rfl, rfl⟩ := Prod.mk.inj (Except.ok.inj (h.symm.trans hok))
    rw [dif_pos hcode]

theorem unescapeFrom_of_notMem {s : List Char} (h : '\\' ∉ s) : unescapeFrom s = .ok s := by
  induction s with
  | nil => rw [unescapeFrom]
  | cons c s ih =>
    rw [mem_cons, not_or] at h
    rw [unescapeFrom_cons (Ne.symm h.1), ih h.2]
    rfl

theorem unescapeStringLiteral_eq (inner : List Char) :
    unescapeStringLiteral inner = (unescapeFrom inner).map String.ofList := by
  rw [unescapeStringLiteral]
  split
  · rename_i h
    rw [unescapeFrom_of_notMem h]
    rfl
  · rfl

/-! ## Numbers -/

def splitSign : List Char → Bool × List Char
  | '-' :: s => (true, s)
  | '+' :: s => (false, s)
  | s => (false, s)

def parseI64 (s : List Char) : Option ℤ :=
  let (negative, digits) := splitSign s
  if digits = [] ∨ ¬digits.all Char.isDigit then none
  else
    let magnitude := Nat.ofDigitChars 10 digits 0
    let n : ℤ := if negative then -magnitude else magnitude
    if -2 ^ 63 ≤ n ∧ n < 2 ^ 63 then some n else none

def JsonNumber.ofI64 (n : ℤ) : JsonNumber :=
  if n < 0 then .negInt n.natAbs else .posInt n.natAbs

/-- The bits of the double closest to `m * 10 ^ e`, the even one of two; `none` if that is
infinite. -/
def nearestDouble (m : ℕ) (e : ℤ) : Option ℕ :=
  if m = 0 then some 0
  else
    let num := m * 10 ^ e.toNat
    let den := 10 ^ (-e).toNat
    -- the quotient lies between `2 ^ (d - 1)` and `2 ^ (d + 1)`
    let d : ℤ := (Nat.log2 num : ℤ) - Nat.log2 den
    let reaches := den * 2 ^ d.toNat ≤ num * 2 ^ (-d).toNat
    -- the exponent of the last place, which is fixed for subnormal numbers
    let k : ℤ := max (if reaches then d - 52 else d - 53) (-1074)
    let a := num * 2 ^ (-k).toNat
    let b := den * 2 ^ k.toNat
    let q := a / b
    let rounded := if 2 * (a % b) > b ∨ (2 * (a % b) = b ∧ q % 2 = 1) then q + 1 else q
    let bits := (k + 1074).toNat * 2 ^ 52 + rounded
    if bits < 0x7FF * 2 ^ 52 then some bits else none

/-- The exponent of a number text: none, or `e` with a signed decimal. -/
def parseExponent : List Char → Option ℤ
  | [] => some 0
  | c :: s =>
    let (negative, digits) := splitSign s
    if (c = 'e' ∨ c = 'E') ∧ digits ≠ [] ∧ digits.all Char.isDigit then
      let magnitude := Nat.ofDigitChars 10 digits 0
      some (if negative then -magnitude else magnitude)
    else none

/-- The digits after a decimal point, and what follows them. -/
def splitFraction : List Char → List Char × List Char
  | '.' :: s => (s.takeWhile Char.isDigit, s.dropWhile Char.isDigit)
  | s => ([], s)

/-- Read a decimal number as a double, given by its bits; `none` if it is not finite. -/
def parseF64 (s : List Char) : Option UInt64 :=
  let (negative, s) := splitSign s
  let int := s.takeWhile Char.isDigit
  let (frac, s) := splitFraction (s.dropWhile Char.isDigit)
  if int ++ frac = [] then none
  else
    (parseExponent s).bind fun e ↦
      (nearestDouble (Nat.ofDigitChars 10 (int ++ frac) 0) (e - frac.length)).map fun bits ↦
        UInt64.ofNat (bits + if negative then 2 ^ 63 else 0)

/-! ## JSON arrays and the other literals -/

def isJsonChar (c : Char) : Bool :=
  c.isDigit || c ∈ ['+', '-', '.', 'e', 'E', '[', ']', '{', '}', ',', ':', ' ', '\t', '\n', '\r',
    't', 'r', 'u', 'f', 'a', 'l', 's', 'n']

inductive JsonShaped : List Char → Prop
  | nil : JsonShaped []
  | char {c s} (hc : isJsonChar c = true) (hs : JsonShaped s) : JsonShaped (c :: s)
  | string {body s} (hbody : Sealed '"' body) (hs : JsonShaped s) :
      JsonShaped ('"' :: (body ++ '"' :: s))

structure JsonReader where
  fromStr : List Char → Option Json
  shaped : ∀ {s v}, fromStr s = some v → JsonShaped s

def JsonReader.empty : JsonReader where
  fromStr _ := none
  shaped h := absurd h (by simp)

def parseScalar (J : JsonReader) (s : List Char) : Option Json :=
  if s = "true".toList then some (.bool true)
  else if s = "false".toList then some (.bool false)
  else if s = "null".toList then some .null
  else
    match parseI64 s with
    | some n => some (.number (.ofI64 n))
    | none =>
      match parseF64 s with
      | some bits => some (.number (.float bits))
      | none => if s.head? = some '[' ∧ s.getLast? = some ']' then J.fromStr s else none

/-! ## The shape of a literal -/

theorem jsonShaped_of_forall {s : List Char} (h : ∀ c ∈ s, isJsonChar c = true) :
    JsonShaped s := by
  induction s with
  | nil => exact .nil
  | cons c s ih =>
    exact .char (h c mem_cons_self) (ih fun d hd ↦ h d (mem_cons_of_mem c hd))

theorem isJsonChar_of_isDigit {c : Char} (h : c.isDigit = true) : isJsonChar c = true := by
  simp [isJsonChar, h]

theorem eq_of_splitSign (s : List Char) :
    s = (splitSign s).2 ∨ ∃ c, (c = '-' ∨ c = '+') ∧ s = c :: (splitSign s).2 := by
  unfold splitSign
  split
  · exact .inr ⟨'-', .inl rfl, rfl⟩
  · exact .inr ⟨'+', .inr rfl, rfl⟩
  · exact .inl rfl

theorem forall_isJsonChar_of_splitSign {s : List Char}
    (h : ∀ c ∈ (splitSign s).2, isJsonChar c = true) : ∀ c ∈ s, isJsonChar c = true := by
  intro c hc
  rcases eq_of_splitSign s with hs | ⟨d, hd, hs⟩
  · exact h c (hs ▸ hc)
  · rw [hs] at hc
    rcases mem_cons.mp hc with rfl | hc
    · rcases hd with rfl | rfl <;> decide
    · exact h c hc

theorem forall_isJsonChar_of_parseI64 {s : List Char} {n : ℤ} (h : parseI64 s = some n) :
    s ≠ [] ∧ ∀ c ∈ s, isJsonChar c = true := by
  simp only [parseI64] at h
  by_cases hdigits : (splitSign s).2 = [] ∨ ¬(splitSign s).2.all Char.isDigit = true
  · rw [if_pos hdigits] at h
    exact absurd h (by simp)
  push Not at hdigits
  refine ⟨?_, forall_isJsonChar_of_splitSign fun c hc ↦ ?_⟩
  · rintro rfl
    exact hdigits.1 rfl
  · exact isJsonChar_of_isDigit (all_eq_true.mp hdigits.2 c hc)

theorem forall_isJsonChar_of_parseExponent {s : List Char} {e : ℤ}
    (h : parseExponent s = some e) : ∀ c ∈ s, isJsonChar c = true := by
  cases s with
  | nil => exact fun c hc ↦ absurd hc not_mem_nil
  | cons d s =>
    simp only [parseExponent] at h
    by_cases hs : (d = 'e' ∨ d = 'E') ∧ (splitSign s).2 ≠ [] ∧ (splitSign s).2.all Char.isDigit
    · obtain ⟨hd, -, hdigits⟩ := hs
      intro c hc
      rcases mem_cons.mp hc with rfl | hc
      · rcases hd with rfl | rfl <;> decide
      · exact forall_isJsonChar_of_splitSign
          (fun c hc ↦ isJsonChar_of_isDigit (all_eq_true.mp hdigits c hc)) c hc
    · rw [if_neg hs] at h
      exact absurd h (by simp)

theorem forall_isJsonChar_of_splitFraction {s : List Char}
    (h : ∀ c ∈ (splitFraction s).2, isJsonChar c = true) : ∀ c ∈ s, isJsonChar c = true := by
  unfold splitFraction at h
  split at h
  · rename_i t
    intro c hc
    rcases mem_cons.mp hc with rfl | hc
    · decide
    · rw [← takeWhile_append_dropWhile (p := Char.isDigit) (l := t)] at hc
      rcases mem_append.mp hc with hc | hc
      · exact isJsonChar_of_isDigit (mem_takeWhile_imp hc)
      · exact h c hc
  · exact h

theorem forall_isJsonChar_of_parseF64 {s : List Char} {bits : UInt64}
    (h : parseF64 s = some bits) : s ≠ [] ∧ ∀ c ∈ s, isJsonChar c = true := by
  simp only [parseF64] at h
  split at h
  · exact absurd h (by simp)
  rename_i hdigits
  obtain ⟨e, he, -⟩ := Option.bind_eq_some_iff.mp h
  refine ⟨?_, forall_isJsonChar_of_splitSign fun c hc ↦ ?_⟩
  · rintro rfl
    exact hdigits rfl
  · rw [← takeWhile_append_dropWhile (p := Char.isDigit) (l := (splitSign s).2)] at hc
    rcases mem_append.mp hc with hc | hc
    · exact isJsonChar_of_isDigit (mem_takeWhile_imp hc)
    · exact forall_isJsonChar_of_splitFraction (forall_isJsonChar_of_parseExponent he) c hc

theorem shaped_of_parseScalar {J : JsonReader} {s : List Char} {v : Json}
    (h : parseScalar J s = some v) :
    JsonShaped s ∧ ∃ c t, s = c :: t ∧ isJsonChar c = true := by
  have hall : s ≠ [] ∧ (∀ c ∈ s, isJsonChar c = true) →
      JsonShaped s ∧ ∃ c t, s = c :: t ∧ isJsonChar c = true := by
    rintro ⟨hne, hs⟩
    obtain ⟨c, t, rfl⟩ := exists_cons_of_ne_nil hne
    exact ⟨jsonShaped_of_forall hs, c, t, rfl, hs c mem_cons_self⟩
  rw [parseScalar] at h
  split at h
  · rename_i htrue
    exact hall (by rw [htrue]; decide)
  split at h
  · rename_i hfalse
    exact hall (by rw [hfalse]; decide)
  split at h
  · rename_i hnull
    exact hall (by rw [hnull]; decide)
  split at h
  · rename_i hi64
    exact hall (forall_isJsonChar_of_parseI64 hi64)
  split at h
  · rename_i hf64
    exact hall (forall_isJsonChar_of_parseF64 hf64)
  split at h
  · rename_i hbrackets
    obtain ⟨t, rfl⟩ := List.head?_eq_some_iff.mp hbrackets.1
    exact ⟨J.shaped h, '[', t, rfl, by decide⟩
  · exact absurd h (by simp)

end WaferRun
