import Mathlib.Data.List.Basic

/-!
# Base64 for URLs

Three bytes are four digits; one or two bytes at the end are two or three digits, without padding.
What was encoded is decoded again (`decode_encode`), and the digits are letters, digits, hyphens
and underscores, so no other character stands in an encoded text (`mem_encode`).
-/

namespace Base64

/-- The digits. -/
def alphabet : List Char :=
  "ABCDEFGHIJKLMNOPQRSTUVWXYZabcdefghijklmnopqrstuvwxyz0123456789-_".toList

def digit (n : ℕ) : Char := alphabet.getD n 'A'

def value (c : Char) : Option ℕ := alphabet.idxOf? c

def encode : List UInt8 → List Char
  | [] => []
  | [a] => [digit (a.toNat / 4), digit (a.toNat % 4 * 16)]
  | [a, b] =>
    [digit (a.toNat / 4), digit (a.toNat % 4 * 16 + b.toNat / 16), digit (b.toNat % 16 * 4)]
  | a :: b :: c :: s =>
    digit (a.toNat / 4) :: digit (a.toNat % 4 * 16 + b.toNat / 16) ::
      digit (b.toNat % 16 * 4 + c.toNat / 64) :: digit (c.toNat % 64) :: encode s

/-- Decode digits, four at a time. Bits that are left over must be zero. -/
def decode : List Char → Option (List UInt8)
  | [] => some []
  | [_] => none
  | [w, x] => do
    let i ← value w
    let j ← value x
    if j % 16 = 0 then some [.ofNat (i * 4 + j / 16)] else none
  | [w, x, y] => do
    let i ← value w
    let j ← value x
    let k ← value y
    if k % 4 = 0 then some [.ofNat (i * 4 + j / 16), .ofNat (j % 16 * 16 + k / 4)] else none
  | w :: x :: y :: z :: s => do
    let i ← value w
    let j ← value x
    let k ← value y
    let l ← value z
    let rest ← decode s
    some (.ofNat (i * 4 + j / 16) :: .ofNat (j % 16 * 16 + k / 4) :: .ofNat (k % 4 * 64 + l) :: rest)

theorem value_digit {n : ℕ} (h : n < 64) : value (digit n) = some n :=
  (by decide : ∀ n < 64, value (digit n) = some n) n h

theorem digit_mem (n : ℕ) : digit n ∈ alphabet := by
  unfold digit
  rw [List.getD_eq_getElem?_getD]
  rcases h : alphabet[n]? with _ | c
  · decide
  · exact List.mem_of_getElem? h

theorem ofNat_eq {a : UInt8} {n : ℕ} (h : n = a.toNat) : UInt8.ofNat n = a := by
  rw [h, UInt8.ofNat_toNat]

/-- **Round trip.** What was encoded is decoded again. -/
theorem decode_encode (s : List UInt8) : decode (encode s) = some s := by
  induction s using encode.induct with
  | case1 => rfl
  | case2 a =>
    have ha := a.toNat_lt
    rw [encode, decode, value_digit (by omega), value_digit (by omega)]
    dsimp only [bind, Option.bind]
    rw [if_pos (by omega), @ofNat_eq a _ (by omega)]
  | case3 a b =>
    have ha := a.toNat_lt
    have hb := b.toNat_lt
    rw [encode, decode, value_digit (by omega), value_digit (by omega), value_digit (by omega)]
    dsimp only [bind, Option.bind]
    rw [if_pos (by omega), @ofNat_eq a _ (by omega), @ofNat_eq b _ (by omega)]
  | case4 a b c s ih =>
    have ha := a.toNat_lt
    have hb := b.toNat_lt
    have hc := c.toNat_lt
    rw [encode, decode, value_digit (by omega), value_digit (by omega), value_digit (by omega),
      value_digit (by omega), ih]
    dsimp only [bind, Option.bind]
    rw [@ofNat_eq a _ (by omega), @ofNat_eq b _ (by omega), @ofNat_eq c _ (by omega)]

/-- Encoded texts have no characters but the digits. -/
theorem mem_encode {s : List UInt8} {c : Char} (h : c ∈ encode s) : c ∈ alphabet := by
  induction s using encode.induct with
  | case1 => cases h
  | case2 a =>
    rw [encode] at h
    simp only [List.mem_cons, List.not_mem_nil, or_false] at h
    rcases h with rfl | rfl <;> exact digit_mem _
  | case3 a b =>
    rw [encode] at h
    simp only [List.mem_cons, List.not_mem_nil, or_false] at h
    rcases h with rfl | rfl | rfl <;> exact digit_mem _
  | case4 a b d s ih =>
    rw [encode] at h
    simp only [List.mem_cons] at h
    rcases h with rfl | rfl | rfl | rfl | h
    case inr.inr.inr.inr => exact ih h
    all_goals exact digit_mem _

end Base64
