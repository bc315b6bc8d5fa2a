import Mathlib.Computability.RegularExpressions
import Mathlib.Tactic.Linarith

/-!
# Regular expressions for ranges of decimal numbers

A regular expression cannot count, so a range of numbers is written digit by digit: the numbers up
to `1440` as `[1-9][0-9]{0,2}|1[0-3][0-9]{2}|14[0-3][0-9]|1440`. Each alternative stands for an
interval of numbers of one length (`Between`), and the rules here put the intervals together: a
digit before a block of digits (`range_mul_between`), one digit before an interval
(`char_mul_between`), two adjacent intervals (`between_add_between`), and the shorter numbers
(`plain_add_plain`). Leading zeros turn an interval of numerals without them into the texts of
digits with a value in it (`zeros_mul_plain`).
-/

open List

namespace Numerals

open RegularExpression

def Digits (w : List Char) : Prop := ∀ c ∈ w, c.isDigit = true

def value (w : List Char) : ℕ := Nat.ofDigitChars 10 w 0

def digitValue (c : Char) : ℕ := c.toNat - '0'.toNat

theorem value_cons (c : Char) (w : List Char) :
    value (c :: w) = digitValue c * 10 ^ w.length + value w := by
  rw [value, Nat.ofDigitChars_cons, Nat.ofDigitChars_eq_ofDigitChars_zero, Nat.mul_zero, Nat.zero_add,
    Nat.mul_comm]
  rfl

theorem digits_cons {c : Char} {w : List Char} : Digits (c :: w) ↔ c.isDigit = true ∧ Digits w :=
  forall_mem_cons

theorem digits_nil : Digits [] := fun _ h ↦ absurd h not_mem_nil

theorem toNat_of_isDigit {c : Char} (h : c.isDigit = true) : 48 ≤ c.toNat ∧ c.toNat ≤ 57 :=
  Char.isDigit_iff_toNat.mp h

theorem isDigit_of_toNat {c : Char} (h : 48 ≤ c.toNat) (h' : c.toNat ≤ 57) : c.isDigit = true :=
  Char.isDigit_iff_toNat.mpr ⟨h, h'⟩

theorem digitValue_le {c : Char} (h : c.isDigit = true) : digitValue c ≤ 9 := by
  have := toNat_of_isDigit h
  change c.toNat - 48 ≤ 9
  omega

theorem digitValue_inj {c d : Char} (hc : c.isDigit = true) (hd : d.isDigit = true)
    (h : digitValue c = digitValue d) : c = d := by
  have h₁ := toNat_of_isDigit hc
  have h₂ := toNat_of_isDigit hd
  have h' : c.toNat - 48 = d.toNat - 48 := h
  exact Char.toNat_inj.mp (by omega)

theorem value_lt {w : List Char} (h : Digits w) : value w < 10 ^ w.length := by
  induction w with
  | nil => exact Nat.one_pos
  | cons c w ih =>
    obtain ⟨hc, hw⟩ := digits_cons.mp h
    have hv := ih hw
    have hd := digitValue_le hc
    rw [value_cons, length_cons, Nat.pow_succ]
    nlinarith

/-! ## The pieces of a pattern -/

def oneOf (cs : List Char) : RegularExpression Char := cs.foldr (fun c r ↦ char c + r) 0

/-- One character between two characters, as in `[a-b]`. -/
def range (a b : Char) : RegularExpression Char :=
  oneOf ((List.range' a.toNat (b.toNat + 1 - a.toNat)).map Char.ofNat)

/-- At most `n` times a pattern, as in `r{0,n}`. -/
def atMost (r : RegularExpression Char) : ℕ → RegularExpression Char
  | 0 => 1
  | n + 1 => 1 + r * atMost r n

/-- A text as a pattern. -/
def literal (s : List Char) : RegularExpression Char := s.foldr (fun c r ↦ char c * r) 1

theorem mem_oneOf {cs w : List Char} : w ∈ (oneOf cs).matches' ↔ ∃ c ∈ cs, w = [c] := by
  induction cs with
  | nil => exact iff_of_false (Set.notMem_empty w) (by rintro ⟨c, h, -⟩; exact not_mem_nil h)
  | cons c cs ih =>
    rw [oneOf, foldr_cons, matches'_add, Language.mem_add, matches'_char, exists_mem_cons_iff]
    exact or_congr Set.mem_singleton_iff ih

theorem mem_range {a b : Char} (hb : b.toNat < 0xD800) {w : List Char} :
    w ∈ (range a b).matches' ↔ ∃ c, a.toNat ≤ c.toNat ∧ c.toNat ≤ b.toNat ∧ w = [c] := by
  rw [range, mem_oneOf]
  constructor
  · rintro ⟨c, hc, rfl⟩
    obtain ⟨n, hn, rfl⟩ := mem_map.mp hc
    rw [mem_range'_1] at hn
    have hn' : (Char.ofNat n).toNat = n := by
      rw [Char.ofNat, dif_pos (.inl (by omega))]
      rfl
    exact ⟨_, by omega, by omega, rfl⟩
  · rintro ⟨c, ha, hb, rfl⟩
    refine ⟨c, mem_map.mpr ⟨c.toNat, mem_range'_1.mpr (by omega), ?_⟩, rfl⟩
    exact Char.ofNat_toNat c

theorem mem_literal {s w : List Char} : w ∈ (literal s).matches' ↔ w = s := by
  induction s generalizing w with
  | nil => exact Language.mem_one w
  | cons c s ih =>
    rw [literal, foldr_cons, matches'_mul, matches'_char, Language.mem_mul]
    constructor
    · rintro ⟨u, rfl, v, hv, rfl⟩
      rw [ih.mp hv]
      rfl
    · rintro rfl
      exact ⟨[c], rfl, s, ih.mpr rfl, rfl⟩

/-! ## Intervals of numbers of one length -/

/-- The texts of `k` digits with a value from `lo` to below `hi`. -/
def Between (k lo hi : ℕ) : Language Char :=
  {w | w.length = k ∧ Digits w ∧ lo ≤ value w ∧ value w < hi}

theorem between_zero : Between 0 0 1 = 1 := by
  ext w
  rw [Language.mem_one]
  constructor
  · exact fun h ↦ length_eq_zero_iff.mp h.1
  · rintro rfl
    exact ⟨rfl, digits_nil, Nat.zero_le _, Nat.one_pos⟩

/-- A range of digits before a block of digits. -/
theorem range_mul_between {a b : Char} (ha : a.isDigit = true) (hb : b.isDigit = true) (k : ℕ) :
    (range a b).matches' * Between k 0 (10 ^ k) =
      Between (k + 1) (digitValue a * 10 ^ k) ((digitValue b + 1) * 10 ^ k) := by
  have ha' := toNat_of_isDigit ha
  have hb' := toNat_of_isDigit hb
  ext w
  rw [Language.mem_mul]
  constructor
  · rintro ⟨u, hu, v, ⟨hk, hdigits, -, hlt⟩, rfl⟩
    obtain ⟨c, hac, hcb, rfl⟩ := (mem_range (by omega)).mp hu
    have hle : digitValue a ≤ digitValue c := Nat.sub_le_sub_right hac 48
    have hge : digitValue c ≤ digitValue b := Nat.sub_le_sub_right hcb 48
    refine ⟨congrArg (· + 1) hk, digits_cons.mpr ⟨isDigit_of_toNat (by omega) (by omega), hdigits⟩, ?_, ?_⟩
    · rw [singleton_append, value_cons, hk]
      nlinarith
    · rw [singleton_append, value_cons, hk]
      nlinarith
  · rintro ⟨hk, hdigits, hlo, hhi⟩
    match w with
    | c :: v =>
      obtain ⟨hc, hv⟩ := digits_cons.mp hdigits
      have hk : v.length = k := Nat.succ_inj.mp hk
      have hlt := value_lt hv
      rw [value_cons, hk] at hlo hhi
      rw [hk] at hlt
      have hpos : 0 < 10 ^ k := Nat.pow_pos (by decide)
      have hle : digitValue a ≤ digitValue c := by
        by_contra hcon
        nlinarith [Nat.succ_le_of_lt (Nat.lt_of_not_le hcon)]
      have hge : digitValue c ≤ digitValue b := by
        by_contra hcon
        nlinarith [Nat.succ_le_of_lt (Nat.lt_of_not_le hcon)]
      have hc' := toNat_of_isDigit hc
      have hle : a.toNat - 48 ≤ c.toNat - 48 := hle
      have hge : c.toNat - 48 ≤ b.toNat - 48 := hge
      exact ⟨[c], (mem_range (by omega)).mpr ⟨c, by omega, by omega, rfl⟩, v,
        ⟨hk, hv, Nat.zero_le _, hlt⟩, rfl⟩

theorem matches_digits_pow (k : ℕ) : (range '0' '9' ^ k).matches' = Between k 0 (10 ^ k) := by
  induction k with
  | zero => exact between_zero.symm
  | succ k ih =>
    rw [matches'_pow, pow_succ', ← matches'_pow, ih, range_mul_between rfl rfl]
    congr 1
    · exact Nat.zero_mul _
    · rw [pow_succ, Nat.mul_comm]
      rfl

/-- A digit before an interval. -/
theorem char_mul_between {c : Char} (hc : c.isDigit = true) {k lo hi : ℕ} (hhi : hi ≤ 10 ^ k) :
    (char c).matches' * Between k lo hi =
      Between (k + 1) (digitValue c * 10 ^ k + lo) (digitValue c * 10 ^ k + hi) := by
  ext w
  rw [matches'_char, Language.mem_mul]
  constructor
  · rintro ⟨u, rfl, v, ⟨hk, hdigits, hlo, hlt⟩, rfl⟩
    refine ⟨congrArg (· + 1) hk, digits_cons.mpr ⟨hc, hdigits⟩, ?_, ?_⟩ <;>
      rw [singleton_append, value_cons, hk] <;> omega
  · rintro ⟨hk, hdigits, hlo, hlt⟩
    match w with
    | d :: v =>
      obtain ⟨hd, hv⟩ := digits_cons.mp hdigits
      have hk : v.length = k := Nat.succ_inj.mp hk
      have hvlt := value_lt hv
      rw [value_cons, hk] at hlo hlt
      rw [hk] at hvlt
      -- the rest is below one unit of the leading digit
      have heq : digitValue d = digitValue c := by
        rcases Nat.lt_trichotomy (digitValue d) (digitValue c) with h | h | h
        · nlinarith
        · exact h
        · nlinarith
      rw [heq] at hlo hlt
      exact ⟨[d], by rw [digitValue_inj hd hc heq]; rfl, v,
        ⟨hk, hv, Nat.le_of_add_le_add_left hlo, Nat.lt_of_add_lt_add_left hlt⟩, rfl⟩

theorem matches_range {a b : Char} (ha : a.isDigit = true) (hb : b.isDigit = true) :
    (range a b).matches' = Between 1 (digitValue a) (digitValue b + 1) := by
  have h := range_mul_between ha hb 0
  rw [Nat.pow_zero, between_zero, mul_one] at h
  rw [h, Nat.mul_one, Nat.mul_one]

theorem matches_literal {w : List Char} (hw : Digits w) :
    (literal w).matches' = Between w.length (value w) (value w + 1) := by
  induction w with
  | nil => exact between_zero.symm
  | cons c w ih =>
    obtain ⟨hc, hw⟩ := digits_cons.mp hw
    rw [literal, foldr_cons, matches'_mul, ← literal, ih hw, char_mul_between hc (value_lt hw),
      value_cons]
    rfl

/-- Two adjacent intervals. -/
theorem between_add_between {k lo m hi : ℕ} (h₁ : lo ≤ m) (h₂ : m ≤ hi) :
    Between k lo m + Between k m hi = Between k lo hi := by
  ext w
  rw [Language.mem_add]
  constructor
  · rintro (⟨hk, hd, hlo, hhi⟩ | ⟨hk, hd, hlo, hhi⟩)
    · exact ⟨hk, hd, hlo, hhi.trans_le h₂⟩
    · exact ⟨hk, hd, h₁.trans hlo, hhi⟩
  · rintro ⟨hk, hd, hlo, hhi⟩
    rcases Nat.lt_or_ge (value w) m with h | h
    · exact .inl ⟨hk, hd, hlo, h⟩
    · exact .inr ⟨hk, hd, h, hhi⟩

/-! ## Numerals without leading zeros -/

/-- The numerals without leading zeros with a value from `lo` to below `hi`. -/
def Plain (lo hi : ℕ) : Language Char :=
  {w | Digits w ∧ 10 ^ (w.length - 1) ≤ value w ∧ lo ≤ value w ∧ value w < hi}

theorem ne_nil_of_mem_plain {lo hi : ℕ} {w : List Char} (h : w ∈ Plain lo hi) : w ≠ [] := by
  rintro rfl
  exact absurd h.2.1 (by decide)

theorem between_eq_plain {k lo hi : ℕ} (hlo : 10 ^ k ≤ lo) (hhi : hi ≤ 10 ^ (k + 1)) :
    Between (k + 1) lo hi = Plain lo hi := by
  ext w
  constructor
  · rintro ⟨hk, hd, hl, hh⟩
    exact ⟨hd, by rw [hk]; exact hlo.trans hl, hl, hh⟩
  · intro hw
    obtain ⟨hd, hfirst, hl, hh⟩ := id hw
    have hpos := length_pos_iff.mpr (ne_nil_of_mem_plain hw)
    have hlt := value_lt hd
    have h₁ : k < w.length :=
      (Nat.pow_lt_pow_iff_right (by decide)).mp ((hlo.trans hl).trans_lt hlt)
    have h₂ : w.length - 1 < k + 1 :=
      (Nat.pow_lt_pow_iff_right (by decide)).mp ((hfirst.trans_lt hh).trans_le hhi)
    exact ⟨by omega, hd, hl, hh⟩

theorem mem_atMost_digits {n : ℕ} {w : List Char} :
    w ∈ (atMost (range '0' '9') n).matches' ↔ Digits w ∧ w.length ≤ n := by
  induction n generalizing w with
  | zero =>
    refine (Language.mem_one w).trans ⟨?_, fun h ↦ length_eq_zero_iff.mp (Nat.le_zero.mp h.2)⟩
    rintro rfl
    exact ⟨digits_nil, Nat.le_refl 0⟩
  | succ n ih =>
    rw [atMost, matches'_add, Language.mem_add, matches'_mul, Language.mem_mul]
    constructor
    · rintro (h | ⟨u, hu, v, hv, rfl⟩)
      · rw [(Language.mem_one w).mp h]
        exact ⟨digits_nil, Nat.zero_le _⟩
      · obtain ⟨c, h₁, h₂, rfl⟩ := (mem_range (by decide)).mp hu
        obtain ⟨hdigits, hlen⟩ := ih.mp hv
        exact ⟨digits_cons.mpr ⟨isDigit_of_toNat h₁ h₂, hdigits⟩, Nat.succ_le_succ hlen⟩
    · rintro ⟨hdigits, hlen⟩
      match w with
      | [] => exact .inl rfl
      | c :: v =>
        obtain ⟨hc, hv⟩ := digits_cons.mp hdigits
        have hc' := toNat_of_isDigit hc
        exact .inr ⟨[c], (mem_range (by decide)).mpr ⟨c, hc'.1, hc'.2, rfl⟩, v,
          ih.mpr ⟨hv, Nat.le_of_succ_le_succ hlen⟩, rfl⟩

theorem matches_shorter (n : ℕ) :
    (range '1' '9' * atMost (range '0' '9') n).matches' = Plain 1 (10 ^ (n + 1)) := by
  ext w
  rw [matches'_mul, Language.mem_mul]
  constructor
  · rintro ⟨u, hu, v, hv, rfl⟩
    obtain ⟨c, h₁, h₂, rfl⟩ := (mem_range (by decide)).mp hu
    have h₁ : 49 ≤ c.toNat := h₁
    have h₂ : c.toNat ≤ 57 := h₂
    obtain ⟨hdigits, hlen⟩ := mem_atMost_digits.mp hv
    have hall : Digits (c :: v) := digits_cons.mpr ⟨isDigit_of_toNat (by omega) h₂, hdigits⟩
    have hone : 1 ≤ digitValue c := by
      change 1 ≤ c.toNat - 48
      omega
    have hfirst : 10 ^ v.length ≤ value (c :: v) := by
      rw [value_cons]
      exact (Nat.le_mul_of_pos_left _ hone).trans (Nat.le_add_right _ _)
    have hpow : 10 ^ (v.length + 1) ≤ 10 ^ (n + 1) :=
      Nat.pow_le_pow_right (by decide) (Nat.succ_le_succ hlen)
    exact ⟨hall, hfirst, (Nat.one_le_pow _ _ (by decide)).trans hfirst, (value_lt hall).trans_le hpow⟩
  · intro hw
    obtain ⟨hdigits, hfirst, -, hlt⟩ := id hw
    match w with
    | [] => exact absurd rfl (ne_nil_of_mem_plain hw)
    | c :: v =>
      obtain ⟨hc, hv⟩ := digits_cons.mp hdigits
      have hvlt := value_lt hv
      have hc' := toNat_of_isDigit hc
      rw [length_cons, Nat.add_sub_cancel] at hfirst
      have hlen : v.length < n + 1 :=
        (Nat.pow_lt_pow_iff_right (by decide)).mp (hfirst.trans_lt hlt)
      -- with a leading zero the value would be below that power of ten
      have hone : c.toNat ≠ 48 := by
        intro hzero
        have hzero : digitValue c = 0 := by
          change c.toNat - 48 = 0
          omega
        rw [value_cons, hzero, Nat.zero_mul, Nat.zero_add] at hfirst
        omega
      have h₁ : 49 ≤ c.toNat := by omega
      exact ⟨[c], (mem_range (by decide)).mpr ⟨c, h₁, hc'.2, rfl⟩, v,
        mem_atMost_digits.mpr ⟨hv, Nat.le_of_lt_succ hlen⟩, rfl⟩

/-- Two adjacent intervals of numerals. -/
theorem plain_add_plain {lo m hi : ℕ} (h₁ : lo ≤ m) (h₂ : m ≤ hi) :
    Plain lo m + Plain m hi = Plain lo hi := by
  ext w
  rw [Language.mem_add]
  constructor
  · rintro (⟨hd, hf, hlo, hhi⟩ | ⟨hd, hf, hlo, hhi⟩)
    · exact ⟨hd, hf, hlo, hhi.trans_le h₂⟩
    · exact ⟨hd, hf, h₁.trans hlo, hhi⟩
  · rintro ⟨hd, hf, hlo, hhi⟩
    rcases Nat.lt_or_ge (value w) m with h | h
    · exact .inl ⟨hd, hf, hlo, h⟩
    · exact .inr ⟨hd, hf, h, hhi⟩

/-! ## Numerals with leading zeros -/

/-- The texts of digits with a value from `lo` to below `hi`. -/
def Numeral (lo hi : ℕ) : Language Char := {w | Digits w ∧ lo ≤ value w ∧ value w < hi}

theorem value_zeros_append {zeros w : List Char} (h : ∀ c ∈ zeros, c = '0') :
    value (zeros ++ w) = value w := by
  induction zeros with
  | nil => rfl
  | cons c zeros ih =>
    obtain ⟨rfl, hz⟩ := forall_mem_cons.mp h
    have hzero : digitValue '0' = 0 := rfl
    rw [cons_append, value_cons, ih hz, hzero, Nat.zero_mul, Nat.zero_add]

theorem exists_zeros_append {w : List Char} (hd : Digits w) (hpos : 0 < value w) :
    ∃ zeros v, (∀ c ∈ zeros, c = '0') ∧ w = zeros ++ v ∧ 10 ^ (v.length - 1) ≤ value v := by
  induction w with
  | nil => exact absurd hpos (by decide)
  | cons c w ih =>
    obtain ⟨hc, hw⟩ := digits_cons.mp hd
    by_cases hzero : digitValue c = 0
    · rw [value_cons, hzero, Nat.zero_mul, Nat.zero_add] at hpos
      obtain ⟨zeros, v, hz, rfl, hv⟩ := ih hw hpos
      have hc0 : c = '0' := digitValue_inj hc rfl hzero
      exact ⟨c :: zeros, v, forall_mem_cons.mpr ⟨hc0, hz⟩, rfl, hv⟩
    · refine ⟨[], c :: w, fun _ h ↦ absurd h not_mem_nil, rfl, ?_⟩
      rw [length_cons, Nat.add_sub_cancel, value_cons]
      exact (Nat.le_mul_of_pos_left _ (Nat.pos_of_ne_zero hzero)).trans (Nat.le_add_right _ _)

theorem mem_star_zero {w : List Char} :
    w ∈ (char '0').star.matches' ↔ ∀ c ∈ w, c = '0' := by
  rw [matches'_star, matches'_char, Language.mem_kstar]
  constructor
  · rintro ⟨pieces, rfl, hpieces⟩ c hc
    obtain ⟨piece, hpiece, hc⟩ := mem_flatten.mp hc
    rw [Set.mem_singleton_iff.mp (hpieces piece hpiece)] at hc
    exact mem_singleton.mp hc
  · intro h
    refine ⟨w.map fun c ↦ [c], ?_, fun y hy ↦ ?_⟩
    · exact (flatMap_singleton' w).symm
    · obtain ⟨c, hc, rfl⟩ := mem_map.mp hy
      rw [h c hc]
      rfl

/-- **Leading zeros do not change a value.** -/
theorem zeros_mul_plain {lo hi : ℕ} (hlo : 0 < lo) :
    (char '0').star.matches' * Plain lo hi = Numeral lo hi := by
  ext w
  rw [Language.mem_mul]
  constructor
  · rintro ⟨zeros, hz, v, ⟨hd, -, hl, hh⟩, rfl⟩
    have hz := mem_star_zero.mp hz
    refine ⟨fun c hc ↦ ?_, ?_, ?_⟩
    · rcases mem_append.mp hc with hc | hc
      · rw [hz c hc]
        rfl
      · exact hd c hc
    · rw [value_zeros_append hz]
      exact hl
    · rw [value_zeros_append hz]
      exact hh
  · rintro ⟨hd, hl, hh⟩
    obtain ⟨zeros, v, hz, rfl, hv⟩ := exists_zeros_append hd (hlo.trans_le hl)
    rw [value_zeros_append hz] at hl hh
    exact ⟨zeros, mem_star_zero.mpr hz, v,
      ⟨fun c hc ↦ hd c (mem_append_right _ hc), hv, hl, hh⟩, rfl⟩

end Numerals
