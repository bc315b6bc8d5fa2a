import WaferRun.Flow.Chain
import WaferRun.Lib.Numerals

/-!
# The timeout of a flow

A timeout is written as a whole number and a unit. The published schema of a flow gives the texts
that are accepted by a regular expression that spells out the numbers of every unit up to 24 hours;
the parser reads the number in 64 bits and compares the duration with the bound. Both accept the
same texts (`mem_timeoutPattern_iff`, `fromStr_eq_ok_iff`): a number that does not fit into 64 bits,
or overflows them when it is turned into seconds, is above the bound of its unit.

The bound also keeps the deadline of a flow within what the clock can represent.
-/

open List Option

namespace WaferRun

open RegularExpression Numerals

/-! ## The units -/

inductive TimeoutUnit
  | millis
  | secs
  | bare
  | mins
  | hours
deriving DecidableEq, Repr

namespace TimeoutUnit

def suffix : TimeoutUnit → List Char
  | millis => "ms".toList
  | secs => "s".toList
  | bare => []
  | mins => "m".toList
  | hours => "h".toList

def unitSecs : TimeoutUnit → ℕ
  | millis | secs | bare => 1
  | mins => 60
  | hours => 3600

def isMillis : TimeoutUnit → Bool
  | millis => true
  | secs | bare | mins | hours => false

def nanos (unit : TimeoutUnit) : ℕ := if unit.isMillis then 10 ^ 6 else unit.unitSecs * 10 ^ 9

def most : TimeoutUnit → ℕ
  | millis => 86400000
  | secs | bare => 86400
  | mins => 1440
  | hours => 24

end TimeoutUnit

structure WrittenTimeout (text digits : List Char) (unit : TimeoutUnit) : Prop where
  text : text = digits ++ unit.suffix
  nonempty : digits ≠ []
  digits : Digits digits

/-! ## The parser -/

structure InvalidTimeout where
  value : String
  reason : String
deriving DecidableEq, Repr

def maxFlowTimeout : ℕ := 24 * 60 * 60 * 10 ^ 9

abbrev TimeoutDuration := {duration : ℕ // 0 < duration ∧ duration ≤ maxFlowTimeout}

def checkTimeoutRange (duration : ℕ) : Except String TimeoutDuration :=
  if hpos : duration = 0 then .error "a flow timeout must be greater than zero"
  else if hmax : duration > maxFlowTimeout then .error "a flow timeout must be at most 24h"
  else .ok ⟨duration, Nat.pos_of_ne_zero hpos, Nat.le_of_not_gt hmax⟩

/-- A timeout as it was written, with its duration in nanoseconds. -/
structure FlowTimeout where
  text : String
  duration : TimeoutDuration
deriving DecidableEq, Repr

def stripSuffix (text p : List Char) : Option (List Char) :=
  if p <:+ text then some (text.take (text.length - p.length)) else none

def checkedU64 (n : ℕ) : Option ℕ := if n < 2 ^ 64 then some n else none

def parseU64 (digits : List Char) : Option ℕ :=
  digits.foldlM (fun n c ↦ do checkedU64 ((← checkedU64 (n * 10)) + digitValue c)) 0

def splitUnit (text : List Char) : List Char × ℕ × Bool :=
  match stripSuffix text "ms".toList with
  | some n => (n, 1, true)
  | none =>
    match stripSuffix text "s".toList with
    | some n => (n, 1, false)
    | none =>
      match stripSuffix text "m".toList with
      | some n => (n, 60, false)
      | none =>
        match stripSuffix text "h".toList with
        | some n => (n, 3600, false)
        | none => (text, 1, false)

def unitDuration (digits : List Char) (unitSecs : ℕ) (isMillis : Bool) : Option ℕ := do
  let n ← parseU64 digits
  if isMillis then some (n * 10 ^ 6) else return (← checkedU64 (n * unitSecs)) * 10 ^ 9

def FlowTimeout.fromStr (text : String) : Except InvalidTimeout FlowTimeout :=
  let invalid reason : Except InvalidTimeout FlowTimeout := .error ⟨text, reason⟩
  let (digits, unitSecs, isMillis) := splitUnit text.toList
  if digits = [] ∨ ¬digits.all Char.isDigit then
    invalid "expected a whole number followed by ms, s, m or h (e.g. \"30s\")"
  else
    match unitDuration digits unitSecs isMillis with
    | none => invalid "a flow timeout must be at most 24h"
    | some duration =>
      match checkTimeoutRange duration with
      | .error reason => invalid reason
      | .ok duration => .ok ⟨text, duration⟩

/-! ## What the parser reads -/

theorem stripSuffix_eq_some {text p n : List Char} :
    stripSuffix text p = some n ↔ text = n ++ p := by
  unfold stripSuffix
  constructor
  · intro h
    split at h
    next hp =>
      obtain ⟨m, rfl⟩ := hp
      rw [length_append, Nat.add_sub_cancel, take_left] at h
      rw [some_inj.mp h]
    · exact absurd h nofun
  · rintro rfl
    rw [if_pos (suffix_append n p), length_append, Nat.add_sub_cancel, take_left]

theorem stripSuffix_eq_none {text p : List Char} : stripSuffix text p = none ↔ ¬p <:+ text := by
  unfold stripSuffix
  split <;> simp [*]

theorem not_suffix_of_digits {digits p : List Char} {c : Char} (h : Digits digits)
    (hc : c.isDigit = false) (hp : p.getLast? = some c) : ¬p <:+ digits := by
  intro hsuffix
  have hmem : c ∈ digits := hsuffix.subset (List.mem_of_getLast? hp)
  rw [h c hmem] at hc
  cases hc

theorem not_suffix_of_getLast? {text p : List Char} {c d : Char} (hp : p.getLast? = some c)
    (ht : text.getLast? = some d) (hne : c ≠ d) : ¬p <:+ text := by
  rintro ⟨m, rfl⟩
  rw [List.getLast?_append, hp] at ht
  exact hne (some_inj.mp ht)

/-- A number and a unit are split into the two. -/
theorem splitUnit_append {digits : List Char} (h : Digits digits) (unit : TimeoutUnit) :
    splitUnit (digits ++ unit.suffix) = (digits, unit.unitSecs, unit.isMillis) := by
  have hself (p : List Char) : stripSuffix (digits ++ p) p = some digits :=
    stripSuffix_eq_some.mpr rfl
  have hlast {p : List Char} {c : Char} (q : List Char) (hp : p.getLast? = some c) {d : Char}
      (hq : q.getLast? = some d) (hne : c ≠ d) : stripSuffix (digits ++ q) p = none := by
    refine stripSuffix_eq_none.mpr (not_suffix_of_getLast? hp ?_ hne)
    rw [List.getLast?_append, hq]
    rfl
  unfold splitUnit
  cases unit with
  | millis => rw [TimeoutUnit.suffix, hself]; rfl
  | secs =>
    have hms : stripSuffix (digits ++ "s".toList) "ms".toList = none := by
      refine stripSuffix_eq_none.mpr fun hsuffix ↦ ?_
      obtain ⟨m, hm⟩ := hsuffix
      -- the letter before the last one is a digit of the number
      have hm : (m ++ ['m']) ++ ['s'] = digits ++ ['s'] := by
        rw [append_assoc]
        exact hm
      have hmem : 'm' ∈ digits := by
        rw [← append_cancel_right hm]
        exact mem_append_right _ mem_cons_self
      exact absurd (h 'm' hmem) (by decide)
    rw [TimeoutUnit.suffix, hms, hself]
    rfl
  | bare =>
    have hnone {p : List Char} {c : Char} (hp : p.getLast? = some c) (hc : c.isDigit = false) :
        stripSuffix (digits ++ []) p = none := by
      rw [append_nil]
      exact stripSuffix_eq_none.mpr (not_suffix_of_digits h hc hp)
    rw [TimeoutUnit.suffix, hnone (c := 's') rfl rfl, hnone (c := 's') rfl rfl,
      hnone (c := 'm') rfl rfl, hnone (c := 'h') rfl rfl, append_nil]
    rfl
  | mins =>
    rw [TimeoutUnit.suffix, hlast "m".toList (c := 's') rfl rfl (by decide),
      hlast "m".toList (c := 's') rfl rfl (by decide), hself]
    rfl
  | hours =>
    rw [TimeoutUnit.suffix, hlast "h".toList (c := 's') rfl rfl (by decide),
      hlast "h".toList (c := 's') rfl rfl (by decide),
      hlast "h".toList (c := 'm') rfl rfl (by decide), hself]
    rfl

theorem splitUnit_eq {text digits : List Char} {secs : ℕ} {millis : Bool}
    (h : splitUnit text = (digits, secs, millis)) :
    ∃ unit : TimeoutUnit,
      text = digits ++ unit.suffix ∧ secs = unit.unitSecs ∧ millis = unit.isMillis := by
  unfold splitUnit at h
  split at h
  next n hn =>
    obtain ⟨rfl, rfl, rfl⟩ := h
    exact ⟨.millis, stripSuffix_eq_some.mp hn, rfl, rfl⟩
  · split at h
    next n hn =>
      obtain ⟨rfl, rfl, rfl⟩ := h
      exact ⟨.secs, stripSuffix_eq_some.mp hn, rfl, rfl⟩
    · split at h
      next n hn =>
        obtain ⟨rfl, rfl, rfl⟩ := h
        exact ⟨.mins, stripSuffix_eq_some.mp hn, rfl, rfl⟩
      · split at h
        next n hn =>
          obtain ⟨rfl, rfl, rfl⟩ := h
          exact ⟨.hours, stripSuffix_eq_some.mp hn, rfl, rfl⟩
        · obtain ⟨rfl, rfl, rfl⟩ := h
          exact ⟨.bare, (append_nil _).symm, rfl, rfl⟩

/-! ## Reading without overflow -/

theorem checkedU64_eq_some {n m : ℕ} : checkedU64 n = some m ↔ n < 2 ^ 64 ∧ n = m := by
  unfold checkedU64
  split
  next h => exact some_inj.trans ⟨fun heq ↦ ⟨h, heq⟩, And.right⟩
  next h => exact iff_of_false nofun fun h' ↦ h h'.1

theorem le_ofDigitChars (w : List Char) (n : ℕ) : n ≤ Nat.ofDigitChars 10 w n := by
  rw [Nat.ofDigitChars_eq_ofDigitChars_zero]
  have hpos : 0 < 10 ^ w.length := Nat.pow_pos (by decide)
  exact (Nat.le_mul_of_pos_left n hpos).trans (Nat.le_add_right _ _)

/-- **Digits of any number are read without wrapping**: the result is their value, or nothing if
that needs more than 64 bits. -/
theorem parseU64_eq (digits : List Char) : parseU64 digits = checkedU64 (value digits) := by
  have hfold (n : ℕ) (hn : n < 2 ^ 64) :
      digits.foldlM (fun n c ↦ do checkedU64 ((← checkedU64 (n * 10)) + digitValue c)) n =
        checkedU64 (Nat.ofDigitChars 10 digits n) := by
    induction digits generalizing n with
    | nil => exact (checkedU64_eq_some.mpr ⟨hn, rfl⟩).symm
    | cons c digits ih =>
      rw [foldlM_cons, Nat.ofDigitChars_cons]
      change (_ >>= _) = checkedU64 (Nat.ofDigitChars 10 digits (10 * n + digitValue c))
      by_cases hstep : 10 * n + digitValue c < 2 ^ 64
      · have hmul : checkedU64 (n * 10) = some (n * 10) :=
          checkedU64_eq_some.mpr ⟨by omega, rfl⟩
        have hadd : checkedU64 (n * 10 + digitValue c) = some (10 * n + digitValue c) :=
          checkedU64_eq_some.mpr ⟨by omega, by omega⟩
        rw [hmul, bind_eq_bind, bind_some, hadd, ← ih _ hstep]
        rfl
      · -- the value only grows with the digits that follow
        have hover : checkedU64 (Nat.ofDigitChars 10 digits (10 * n + digitValue c)) = none := by
          have := le_ofDigitChars digits (10 * n + digitValue c)
          exact if_neg (by omega)
        have hadd : checkedU64 (n * 10 + digitValue c) = none := if_neg (by omega)
        rw [hover]
        unfold checkedU64
        split
        · rw [bind_eq_bind, bind_some, ← checkedU64, hadd]
          rfl
        · rfl
  exact hfold 0 (by decide)

theorem eq_of_unitDuration {digits : List Char} {unit : TimeoutUnit} {d : ℕ}
    (h : unitDuration digits unit.unitSecs unit.isMillis = some d) :
    d = value digits * unit.nanos := by
  obtain ⟨n, hn, h⟩ := bind_eq_some_iff.mp h
  rw [parseU64_eq] at hn
  obtain ⟨-, rfl⟩ := checkedU64_eq_some.mp hn
  unfold TimeoutUnit.nanos
  split at h
  next hmillis => rw [if_pos hmillis, some_inj.mp h]
  next hmillis =>
    obtain ⟨m, hm, h⟩ := bind_eq_some_iff.mp h
    obtain ⟨-, rfl⟩ := checkedU64_eq_some.mp hm
    rw [if_neg hmillis, ← Nat.mul_assoc]
    exact (some_inj.mp h).symm

theorem unitDuration_eq_some {digits : List Char} {unit : TimeoutUnit}
    (h : value digits * unit.nanos ≤ maxFlowTimeout) :
    unitDuration digits unit.unitSecs unit.isMillis = some (value digits * unit.nanos) := by
  have hmax : maxFlowTimeout = 86400000000000 := rfl
  unfold TimeoutUnit.nanos at h ⊢
  have hone : 1 ≤ unit.unitSecs := by cases unit <;> decide
  by_cases hmillis : unit.isMillis = true
  · rw [if_pos hmillis] at h ⊢
    have hparse : parseU64 digits = some (value digits) := by
      rw [parseU64_eq]
      exact checkedU64_eq_some.mpr ⟨by omega, rfl⟩
    rw [unitDuration, hparse, bind_eq_bind, bind_some, if_pos hmillis]
  · rw [if_neg hmillis, ← Nat.mul_assoc] at h ⊢
    have hle : value digits ≤ value digits * unit.unitSecs := Nat.le_mul_of_pos_right _ hone
    have hparse : parseU64 digits = some (value digits) := by
      rw [parseU64_eq]
      exact checkedU64_eq_some.mpr ⟨by omega, rfl⟩
    have hsecs : checkedU64 (value digits * unit.unitSecs) = some (value digits * unit.unitSecs) :=
      checkedU64_eq_some.mpr ⟨by omega, rfl⟩
    rw [unitDuration, hparse, bind_eq_bind, bind_some, if_neg hmillis, hsecs,
      bind_some]
    rfl

theorem checkTimeoutRange_eq_ok {d : ℕ} {duration : TimeoutDuration} :
    checkTimeoutRange d = .ok duration ↔ d = duration := by
  unfold checkTimeoutRange
  constructor
  · intro h
    split at h
    · exact absurd h nofun
    · split at h
      · exact absurd h nofun
      · rw [← Except.ok.inj h]
  · rintro rfl
    rw [dif_neg duration.2.1.ne', dif_neg duration.2.2.not_gt]

/-- **The parser accepts a number of units within the bound, and reads it as their product.** -/
theorem fromStr_eq_ok_iff {text : String} {t : FlowTimeout} :
    FlowTimeout.fromStr text = .ok t ↔
      t.text = text ∧ ∃ digits unit, WrittenTimeout text.toList digits unit ∧
        t.duration = value digits * unit.nanos := by
  unfold FlowTimeout.fromStr
  constructor
  · intro h
    have hsplit : splitUnit text.toList =
        ((splitUnit text.toList).1, (splitUnit text.toList).2.1, (splitUnit text.toList).2.2) := rfl
    obtain ⟨unit, htext, hsecs, hmillis⟩ := splitUnit_eq hsplit
    dsimp only at h
    rw [hsecs, hmillis] at h
    split at h
    · exact absurd h nofun
    next hdigits =>
      rw [not_or, not_not, List.all_eq_true] at hdigits
      split at h
      · exact absurd h nofun
      next d hd =>
        split at h
        · exact absurd h nofun
        next duration hrange =>
          rw [← Except.ok.inj h]
          refine ⟨rfl, _, unit, ⟨htext, hdigits.1, hdigits.2⟩, ?_⟩
          rw [← eq_of_unitDuration hd]
          exact (checkTimeoutRange_eq_ok.mp hrange).symm
  · rintro ⟨rfl, digits, unit, hw, hduration⟩
    rw [hw.text, splitUnit_append hw.digits]
    dsimp only
    have hdigits : ¬(digits = [] ∨ ¬digits.all Char.isDigit = true) := by
      rw [not_or, not_not, List.all_eq_true]
      exact ⟨hw.nonempty, hw.digits⟩
    rw [if_neg hdigits, unitDuration_eq_some (hduration ▸ t.duration.2.2), ← hduration]
    dsimp only
    rw [checkTimeoutRange_eq_ok.mpr rfl]

/-! ## The published pattern -/

/-- `[0-9]` -/
def anyDigit : RegularExpression Char := range '0' '9'

/-- The pattern of the schema: one alternative per unit, each spelling out the numbers up to 24
hours in that unit. -/
def timeoutPattern : RegularExpression Char :=
  (char '0').star *
    ((range '1' '9' * atMost anyDigit 6 + range '1' '7' * anyDigit ^ 7 +
        char '8' * (range '0' '5' * anyDigit ^ 6) +
        char '8' * (char '6' * (range '0' '3' * anyDigit ^ 5)) +
        literal "86400000".toList) * literal "ms".toList +
      (range '1' '9' * atMost anyDigit 3 + range '1' '7' * anyDigit ^ 4 +
        char '8' * (range '0' '5' * anyDigit ^ 3) +
        char '8' * (char '6' * (range '0' '3' * anyDigit ^ 2)) +
        literal "86400".toList) * (literal "s".toList + 1) +
      (range '1' '9' * atMost anyDigit 2 + char '1' * (range '0' '3' * anyDigit ^ 2) +
        char '1' * (char '4' * (range '0' '3' * anyDigit)) +
        literal "1440".toList) * literal "m".toList +
      (range '1' '9' + char '1' * anyDigit + char '2' * range '0' '4') * literal "h".toList)

theorem matches_range_mul_pow {a b : Char} (ha : a.isDigit = true) (hb : b.isDigit = true) (k : ℕ) :
    (range a b * anyDigit ^ k).matches' =
      Between (k + 1) (digitValue a * 10 ^ k) ((digitValue b + 1) * 10 ^ k) := by
  rw [matches'_mul, anyDigit, matches_digits_pow, range_mul_between ha hb]

/-- The numbers up to `864` with `k` zeros behind it. -/
theorem matches_upTo864 (k : ℕ) {w : List Char} (hw : Digits w) (hlength : w.length = k + 3)
    (hvalue : value w = 864 * 10 ^ k) :
    (range '1' '9' * atMost anyDigit (k + 1) + range '1' '7' * anyDigit ^ (k + 2) +
        char '8' * (range '0' '5' * anyDigit ^ (k + 1)) +
        char '8' * (char '6' * (range '0' '3' * anyDigit ^ k)) +
        literal w).matches' = Plain 1 (864 * 10 ^ k + 1) := by
  have hpow₁ : 10 ^ (k + 1) = 10 * 10 ^ k := Nat.pow_succ'
  have hpow₂ : 10 ^ (k + 2) = 100 * 10 ^ k := by rw [Nat.pow_succ', hpow₁]; omega
  have hpow₃ : 10 ^ (k + 3) = 1000 * 10 ^ k := by rw [Nat.pow_succ', hpow₂]; omega
  have hpos : 0 < 10 ^ k := Nat.pow_pos (by decide)
  have height : digitValue '8' = 8 := rfl
  have hsix : digitValue '6' = 6 := rfl
  have h₁ : (range '1' '7' * anyDigit ^ (k + 2)).matches' =
      Between (k + 3) (100 * 10 ^ k) (800 * 10 ^ k) := by
    rw [matches_range_mul_pow rfl rfl]
    exact congrArg₂ (Between (k + 3)) (show 1 * 10 ^ (k + 2) = _ by omega)
      (show (7 + 1) * 10 ^ (k + 2) = _ by omega)
  have h₂ : (char '8' * (range '0' '5' * anyDigit ^ (k + 1))).matches' =
      Between (k + 3) (800 * 10 ^ k) (860 * 10 ^ k) := by
    rw [matches'_mul, matches_range_mul_pow rfl rfl, char_mul_between rfl, height]
    · exact congrArg₂ (Between (k + 3)) (show 8 * 10 ^ (k + 2) + 0 * 10 ^ (k + 1) = _ by omega)
        (show 8 * 10 ^ (k + 2) + (5 + 1) * 10 ^ (k + 1) = _ by omega)
    · change (5 + 1) * 10 ^ (k + 1) ≤ 10 ^ (k + 2)
      omega
  have h₃ : (char '8' * (char '6' * (range '0' '3' * anyDigit ^ k))).matches' =
      Between (k + 3) (860 * 10 ^ k) (864 * 10 ^ k) := by
    rw [matches'_mul, matches'_mul, matches_range_mul_pow rfl rfl, char_mul_between rfl, hsix,
      char_mul_between rfl, height]
    · exact congrArg₂ (Between (k + 3))
        (show 8 * 10 ^ (k + 2) + (6 * 10 ^ (k + 1) + 0 * 10 ^ k) = _ by omega)
        (show 8 * 10 ^ (k + 2) + (6 * 10 ^ (k + 1) + (3 + 1) * 10 ^ k) = _ by omega)
    · change 6 * 10 ^ (k + 1) + (3 + 1) * 10 ^ k ≤ 10 ^ (k + 2)
      omega
    · change (3 + 1) * 10 ^ k ≤ 10 ^ (k + 1)
      omega
  have h₄ : (literal w).matches' = Between (k + 3) (864 * 10 ^ k) (864 * 10 ^ k + 1) := by
    rw [matches_literal hw, hlength, hvalue]
  simp only [matches'_add]
  rw [h₁, h₂, h₃, h₄, anyDigit, matches_shorter, add_assoc, add_assoc, add_assoc,
    between_add_between (by omega) (by omega), between_add_between (by omega) (by omega),
    between_add_between (by omega) (by omega), between_eq_plain (by omega) (by omega), ← hpow₂]
  exact plain_add_plain (by omega) (by omega)

theorem matches_millis :
    (range '1' '9' * atMost anyDigit 6 + range '1' '7' * anyDigit ^ 7 +
        char '8' * (range '0' '5' * anyDigit ^ 6) +
        char '8' * (char '6' * (range '0' '3' * anyDigit ^ 5)) +
        literal "86400000".toList).matches' = Plain 1 86400001 :=
  matches_upTo864 5 (by unfold Digits; decide) rfl rfl

theorem matches_secs :
    (range '1' '9' * atMost anyDigit 3 + range '1' '7' * anyDigit ^ 4 +
        char '8' * (range '0' '5' * anyDigit ^ 3) +
        char '8' * (char '6' * (range '0' '3' * anyDigit ^ 2)) +
        literal "86400".toList).matches' = Plain 1 86401 :=
  matches_upTo864 2 (by unfold Digits; decide) rfl rfl

theorem matches_mins :
    (range '1' '9' * atMost anyDigit 2 + char '1' * (range '0' '3' * anyDigit ^ 2) +
        char '1' * (char '4' * (range '0' '3' * anyDigit)) +
        literal "1440".toList).matches' = Plain 1 1441 := by
  have h₁ : (char '1' * (range '0' '3' * anyDigit ^ 2)).matches' = Between 4 1000 1400 := by
    rw [matches'_mul, matches_range_mul_pow rfl rfl, char_mul_between rfl (by decide)]
    rfl
  have hdigit : anyDigit.matches' = Between 1 0 (10 ^ 1) := matches_range rfl rfl
  have h₂ : (char '1' * (char '4' * (range '0' '3' * anyDigit))).matches' =
      Between 4 1400 1440 := by
    rw [matches'_mul, matches'_mul, matches'_mul, hdigit, range_mul_between rfl rfl,
      char_mul_between rfl (by decide), char_mul_between rfl (by decide)]
    rfl
  have h₃ : (literal "1440".toList).matches' = Between 4 1440 1441 :=
    matches_literal (by unfold Digits; decide)
  simp only [matches'_add]
  rw [h₁, h₂, h₃, anyDigit, matches_shorter, add_assoc, add_assoc,
    between_add_between (by decide) (by decide), between_add_between (by decide) (by decide),
    between_eq_plain (by decide) (by decide)]
  exact plain_add_plain (by decide) (by decide)

theorem matches_hours :
    (range '1' '9' + char '1' * anyDigit + char '2' * range '0' '4').matches' = Plain 1 25 := by
  have h₁ : (range '1' '9').matches' = Between 1 1 10 := matches_range rfl rfl
  have hdigit : anyDigit.matches' = Between 1 0 10 := matches_range rfl rfl
  have h₂ : (char '1' * anyDigit).matches' = Between 2 10 20 := by
    rw [matches'_mul, hdigit, char_mul_between rfl (by decide)]
    rfl
  have h₃ : (char '2' * range '0' '4').matches' = Between 2 20 25 := by
    rw [matches'_mul, matches_range rfl rfl, char_mul_between rfl (by decide)]
    rfl
  simp only [matches'_add]
  rw [h₁, h₂, h₃, add_assoc, between_add_between (by decide) (by decide),
    between_eq_plain (by decide) (by decide), between_eq_plain (by decide) (by decide),
    plain_add_plain (by decide) (by decide)]

theorem mem_numeral_mul_literal {hi : ℕ} {suffix text : List Char} :
    text ∈ Numeral 1 hi * (literal suffix).matches' ↔
      ∃ digits, text = digits ++ suffix ∧ Digits digits ∧ 1 ≤ value digits ∧ value digits < hi := by
  rw [Language.mem_mul]
  constructor
  · rintro ⟨digits, ⟨hd, hlo, hhi⟩, v, hv, rfl⟩
    rw [mem_literal.mp hv]
    exact ⟨digits, rfl, hd, hlo, hhi⟩
  · rintro ⟨digits, rfl, hd, hlo, hhi⟩
    exact ⟨digits, ⟨hd, hlo, hhi⟩, suffix, mem_literal.mpr rfl, rfl⟩

theorem value_mul_nanos_le_iff (n : ℕ) (unit : TimeoutUnit) :
    n * unit.nanos ≤ maxFlowTimeout ↔ n < unit.most + 1 := by
  have hmax : maxFlowTimeout = unit.most * unit.nanos := by cases unit <;> rfl
  have hpos : 0 < unit.nanos := by cases unit <;> decide
  rw [hmax, Nat.mul_le_mul_right_iff hpos, Nat.lt_succ_iff]

/-- **The pattern matches the numbers of units that are within the bound.** -/
theorem mem_timeoutPattern_iff {text : List Char} :
    text ∈ timeoutPattern.matches' ↔
      ∃ digits unit, WrittenTimeout text digits unit ∧ 0 < value digits * unit.nanos ∧
        value digits * unit.nanos ≤ maxFlowTimeout := by
  have hbare : (literal ([] : List Char)).matches' = (1 : Language Char) := rfl
  have hlanguage : timeoutPattern.matches' =
      Numeral 1 86400001 * (literal TimeoutUnit.millis.suffix).matches' +
        (Numeral 1 86401 * (literal TimeoutUnit.secs.suffix).matches' +
          Numeral 1 86401 * (literal TimeoutUnit.bare.suffix).matches') +
        Numeral 1 1441 * (literal TimeoutUnit.mins.suffix).matches' +
        Numeral 1 25 * (literal TimeoutUnit.hours.suffix).matches' := by
    rw [timeoutPattern, matches'_mul, matches'_add, matches'_add, matches'_add, matches'_mul,
      matches_millis, matches'_mul, matches_secs, matches'_mul, matches_mins, matches'_mul,
      matches_hours, matches'_add, matches'_epsilon, mul_add, mul_add, mul_add, ← mul_assoc,
      zeros_mul_plain Nat.one_pos, ← mul_assoc, zeros_mul_plain Nat.one_pos, ← mul_assoc,
      zeros_mul_plain Nat.one_pos, ← mul_assoc, zeros_mul_plain Nat.one_pos, mul_add]
    rfl
  have hunit (unit : TimeoutUnit) : text ∈ Numeral 1 (unit.most + 1) * (literal unit.suffix).matches' ↔
      ∃ digits, WrittenTimeout text digits unit ∧ 0 < value digits * unit.nanos ∧
        value digits * unit.nanos ≤ maxFlowTimeout := by
    have hpos : 0 < unit.nanos := by cases unit <;> decide
    rw [mem_numeral_mul_literal]
    refine exists_congr fun digits ↦ ?_
    rw [value_mul_nanos_le_iff]
    constructor
    · rintro ⟨htext, hd, hlo, hhi⟩
      refine ⟨⟨htext, ?_, hd⟩, Nat.mul_pos hlo hpos, hhi⟩
      rintro rfl
      exact absurd hlo (by decide)
    · rintro ⟨hw, hlo, hhi⟩
      exact ⟨hw.text, hw.digits, Nat.pos_of_mul_pos_right hlo, hhi⟩
  rw [hlanguage]
  simp only [Language.mem_add]
  constructor
  · rintro (((h | h | h) | h) | h)
    · obtain ⟨digits, h⟩ := (hunit .millis).mp h
      exact ⟨digits, _, h⟩
    · obtain ⟨digits, h⟩ := (hunit .secs).mp h
      exact ⟨digits, _, h⟩
    · obtain ⟨digits, h⟩ := (hunit .bare).mp h
      exact ⟨digits, _, h⟩
    · obtain ⟨digits, h⟩ := (hunit .mins).mp h
      exact ⟨digits, _, h⟩
    · obtain ⟨digits, h⟩ := (hunit .hours).mp h
      exact ⟨digits, _, h⟩
  · rintro ⟨digits, unit, h⟩
    have h := (hunit unit).mpr ⟨digits, h⟩
    cases unit with
    | millis => exact .inl (.inl (.inl h))
    | secs => exact .inl (.inl (.inr (.inl h)))
    | bare => exact .inl (.inl (.inr (.inr h)))
    | mins => exact .inl (.inr h)
    | hours => exact .inr h

/-! ## Deadlines -/

/-- A point in time as the standard library holds it: signed 64-bit seconds and nanoseconds. -/
structure Instant where
  secs : ℤ
  nanos : ℕ
  secs_ge : -2 ^ 63 ≤ secs
  secs_lt : secs < 2 ^ 63
  nanos_lt : nanos < 10 ^ 9

namespace Instant

def total (now : Instant) : ℤ := now.secs * 10 ^ 9 + now.nanos

def ofParts (secs : ℤ) (nanos : ℕ) (hge : -2 ^ 63 ≤ secs) (hnanos : nanos < 10 ^ 9) :
    Option Instant :=
  if hlt : secs < 2 ^ 63 then some ⟨secs, nanos, hge, hlt, hnanos⟩ else none

def checkedAdd (now : Instant) (duration : ℕ) : Option Instant :=
  let secs := now.secs + ((duration / 10 ^ 9 : ℕ) : ℤ)
  let nanos := now.nanos + duration % 10 ^ 9
  if ¬secs < 2 ^ 63 then none
  else if h : nanos < 10 ^ 9 then
    ofParts secs nanos (now.secs_ge.trans (Int.le_add_of_nonneg_right (Int.natCast_nonneg _))) h
  else
    ofParts (secs + 1) (nanos - 10 ^ 9)
      ((now.secs_ge.trans (Int.le_add_of_nonneg_right (Int.natCast_nonneg _))).trans
        (Int.le_add_one (Int.le_refl _)))
      (by have := now.nanos_lt; have := Nat.mod_lt duration (y := 10 ^ 9) (by decide); omega)

/-- An instant the monotonic clock can show: it counts nanoseconds in 64 bits. -/
def Reading (now : Instant) : Prop := 0 ≤ now.total ∧ now.total < 2 ^ 64

theorem ofParts_eq_some {secs : ℤ} {nanos : ℕ} (hge : -2 ^ 63 ≤ secs) (hnanos : nanos < 10 ^ 9)
    (hlt : secs < 2 ^ 63) :
    ∃ own, ofParts secs nanos hge hnanos = some own ∧ own.total = secs * 10 ^ 9 + nanos :=
  ⟨_, dif_pos hlt, rfl⟩

theorem checkedAdd_eq_some {now : Instant} {duration : ℕ}
    (h : now.total + duration < 2 ^ 63 * 10 ^ 9) :
    ∃ own, now.checkedAdd duration = some own ∧ own.total = now.total + duration := by
  have hsplit := Nat.div_add_mod duration (10 ^ 9)
  have hmod := Nat.mod_lt duration (y := 10 ^ 9) (by decide)
  have hnanos := now.nanos_lt
  unfold total at h
  unfold checkedAdd
  dsimp only
  rw [if_neg (by rw [not_not]; omega)]
  split
  next hcarry =>
    obtain ⟨own, hown, htotal⟩ := ofParts_eq_some
      (now.secs_ge.trans (Int.le_add_of_nonneg_right (Int.natCast_nonneg (duration / 10 ^ 9))))
      hcarry (by omega)
    refine ⟨own, hown, ?_⟩
    rw [htotal, total]
    push_cast
    omega
  next hcarry =>
    obtain ⟨own, hown, htotal⟩ := ofParts_eq_some
      ((now.secs_ge.trans
        (Int.le_add_of_nonneg_right (Int.natCast_nonneg (duration / 10 ^ 9)))).trans
          (Int.le_add_one (Int.le_refl _)))
      (show now.nanos + duration % 10 ^ 9 - 10 ^ 9 < 10 ^ 9 by omega) (by omega)
    refine ⟨own, hown, ?_⟩
    rw [htotal, total]
    omega

end Instant

theorem WrittenTimeout.value_mul_nanos_eq {text digits digits' : List Char} {unit unit' : TimeoutUnit}
    (h : WrittenTimeout text digits unit) (h' : WrittenTimeout text digits' unit') :
    value digits * unit.nanos = value digits' * unit'.nanos := by
  have hsplit := splitUnit_append h.digits unit
  rw [← h.text, h'.text, splitUnit_append h'.digits unit', Prod.mk.injEq, Prod.mk.injEq] at hsplit
  obtain ⟨rfl, hsecs, hmillis⟩ := hsplit
  rw [TimeoutUnit.nanos, TimeoutUnit.nanos, hsecs, hmillis]

/-- **Flow timeouts.** The parser accepts a text exactly if it matches the published pattern and its
value is above zero and at most 24 hours, where the pattern alone already implies the bounds; the
duration is the number times its unit, however many digits the number has; and a flow with such a
timeout can be entered at any instant the clock shows: its deadline does not overflow. -/
theorem flow_timeouts :
    (∀ text : String, (∃ t, FlowTimeout.fromStr text = .ok t) ↔
      text.toList ∈ timeoutPattern.matches' ∧
        ∃ digits unit, WrittenTimeout text.toList digits unit ∧ 0 < value digits * unit.nanos ∧
          value digits * unit.nanos ≤ maxFlowTimeout) ∧
    (∀ text : String, (∃ t, FlowTimeout.fromStr text = .ok t) ↔
      text.toList ∈ timeoutPattern.matches') ∧
    ∀ (text : String) (t : FlowTimeout), FlowTimeout.fromStr text = .ok t →
      t.text = text ∧
      (∀ digits unit, WrittenTimeout text.toList digits unit →
        t.duration = value digits * unit.nanos) ∧
      ∀ (now : Instant) (chain : TransferChain) (flow : CompiledFlow), now.Reading →
        flow.timeout = some (t.duration : ℕ) →
        ∃ own, now.checkedAdd t.duration = some own ∧ own.total = now.total + (t.duration : ℕ) ∧
          (chain.enter flow now.total.toNat).deadline =
            some ((chain.deadline.map fun dl ↦ min dl own.total.toNat).getD own.total.toNat) := by
  have haccepts (text : String) : (∃ t, FlowTimeout.fromStr text = .ok t) ↔
      text.toList ∈ timeoutPattern.matches' := by
    rw [mem_timeoutPattern_iff]
    constructor
    · rintro ⟨t, ht⟩
      obtain ⟨-, digits, unit, hw, hduration⟩ := fromStr_eq_ok_iff.mp ht
      exact ⟨digits, unit, hw, hduration ▸ t.duration.2.1, hduration ▸ t.duration.2.2⟩
    · rintro ⟨digits, unit, hw, hpos, hmax⟩
      exact ⟨⟨text, value digits * unit.nanos, hpos, hmax⟩,
        fromStr_eq_ok_iff.mpr ⟨rfl, digits, unit, hw, rfl⟩⟩
  refine ⟨fun text ↦ ?_, haccepts, fun text t ht ↦ ?_⟩
  · rw [haccepts, iff_self_and]
    exact mem_timeoutPattern_iff.mp
  · obtain ⟨htext, digits, unit, hw, hduration⟩ := fromStr_eq_ok_iff.mp ht
    refine ⟨htext, fun digits' unit' hw' ↦ hduration.trans (hw.value_mul_nanos_eq hw'), ?_⟩
    intro now chain flow hnow hflow
    have hmax := t.duration.2.2
    have hbound : maxFlowTimeout = 86400000000000 := rfl
    obtain ⟨own, hown, htotal⟩ := @Instant.checkedAdd_eq_some now t.duration (by
      have := hnow.2
      omega)
    refine ⟨own, hown, htotal, ?_⟩
    have hnat : own.total.toNat = now.total.toNat + (t.duration : ℕ) := by
      have := hnow.1
      omega
    rw [TransferChain.enter, hflow, hnat]

/-- A flow of thirty seconds, entered five seconds after the clock began. -/
theorem flow_timeouts_thirty_seconds :
    ∃ t, FlowTimeout.fromStr "30s" = .ok t ∧
      ∃ own, Instant.checkedAdd ⟨5, 0, by decide, by decide, by decide⟩ t.duration = some own ∧
        (TransferChain.new.enter ⟨"login", some t.duration, 1, .stop, false, []⟩ 5000000000).deadline =
          some own.total.toNat := by
  have ht : FlowTimeout.fromStr "30s" =
      .ok ⟨"30s", 30000000000, by decide, by decide⟩ := by decide +kernel
  obtain ⟨own, hown, -, hdeadline⟩ := (flow_timeouts.2.2 "30s" _ ht).2.2
    ⟨5, 0, by decide, by decide, by decide⟩ .new ⟨"login", some 30000000000, 1, .stop, false, []⟩
    ⟨by decide, by decide⟩ rfl
  exact ⟨_, ht, own, hown, hdeadline⟩

end WaferRun
