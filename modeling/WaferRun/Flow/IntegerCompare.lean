import WaferRun.Discovery.SchemaGraph
import WaferRun.Flow.Compile

/-!
# Comparing integers in conditions

Equality of numbers compares integers as integers. The ordered operators turn both sides into
doubles first, so two integers above `2 ^ 53` that round to the same double are neither less nor
greater than one another, whether they are equal or not. Rounding keeps the order of integers
(`toDouble_le_toDouble`), so this is all that can go wrong: where the doubles differ, every operator
says what is true of the integers (`integer_comparisons`).
-/

open Nat

namespace WaferRun

/-! ## Rounding half to even -/

def roundHalfEven (a b : ℕ) : ℕ :=
  if 2 * (a % b) > b ∨ (2 * (a % b) = b ∧ a / b % 2 = 1) then a / b + 1 else a / b

theorem le_roundHalfEven (a b : ℕ) : a / b ≤ roundHalfEven a b := by
  unfold roundHalfEven
  split_ifs
  · exact le_succ _
  · exact Nat.le_refl _

theorem roundHalfEven_le (a b : ℕ) : roundHalfEven a b ≤ a / b + 1 := by
  unfold roundHalfEven
  split_ifs
  · exact Nat.le_refl _
  · exact le_succ _

theorem roundHalfEven_mono {a a' : ℕ} (h : a ≤ a') (b : ℕ) :
    roundHalfEven a b ≤ roundHalfEven a' b := by
  rcases Nat.lt_or_eq_of_le (@Nat.div_le_div_right a a' b h) with hlt | heq
  · exact (roundHalfEven_le a b).trans (hlt.trans_le (le_roundHalfEven a' b))
  · -- with the same quotient the larger number has the larger remainder
    have hmod : a % b ≤ a' % b := by
      have h₁ := div_add_mod a b
      have h₂ := div_add_mod a' b
      rw [heq] at h₁
      omega
    unfold roundHalfEven
    rw [heq]
    split_ifs with h₁ h₂
    · exact Nat.le_refl _
    · omega
    · exact le_succ _
    · exact Nat.le_refl _

theorem roundHalfEven_one (a : ℕ) : roundHalfEven a 1 = a := by
  rw [roundHalfEven, mod_one, Nat.div_one, if_neg (by omega)]

/-! ## The double of an integer -/

/-- The significand of the double of a positive integer: its leading 53 binary digits, rounded. -/
def significand (n : ℕ) : ℕ := roundHalfEven (n * 2 ^ (52 - n.log2)) (2 ^ (n.log2 - 52))

theorem nearestDouble_eq {n : ℕ} (hn : n ≠ 0)
    (hfinite : (n.log2 + 1022) * 2 ^ 52 + significand n < 0x7FF * 2 ^ 52) :
    nearestDouble n 0 = some ((n.log2 + 1022) * 2 ^ 52 + significand n) := by
  have hnum : n * 10 ^ (0 : ℤ).toNat = n := Nat.mul_one n
  have hden : 10 ^ (-(0 : ℤ)).toNat = 1 := rfl
  have hd : (n.log2 : ℤ) - (Nat.log2 1 : ℕ) = n.log2 := Int.sub_zero _
  have h₁ : (n.log2 : ℤ).toNat = n.log2 := Int.toNat_natCast _
  have h₂ : (-(n.log2 : ℤ)).toNat = 0 := by omega
  have hreaches : 1 * 2 ^ n.log2 ≤ n * 2 ^ 0 := by
    rw [Nat.one_mul, Nat.pow_zero, Nat.mul_one]
    exact log2_self_le hn
  have hmax : max ((n.log2 : ℤ) - 52) (-1074) = (n.log2 : ℤ) - 52 := max_eq_left (by omega)
  have h₃ : (-((n.log2 : ℤ) - 52)).toNat = 52 - n.log2 := by omega
  have h₄ : ((n.log2 : ℤ) - 52).toNat = n.log2 - 52 := by omega
  have h₅ : ((n.log2 : ℤ) - 52 + 1074).toNat = n.log2 + 1022 := by omega
  rw [nearestDouble, if_neg hn]
  dsimp only
  rw [hnum, hden, hd, h₁, h₂, if_pos hreaches, hmax, h₃, h₄, h₅, Nat.one_mul]
  rw [← roundHalfEven, ← significand, if_pos hfinite]

theorem significand_bounds {n : ℕ} (hn : n ≠ 0) :
    2 ^ 52 ≤ significand n ∧ significand n ≤ 2 ^ 53 ∧ (n.log2 ≤ 52 → significand n < 2 ^ 53) := by
  have hlow := log2_self_le hn
  have hhigh := @lt_log2_self n
  rcases Nat.le_total n.log2 52 with hd | hd
  · have hexact : significand n = n * 2 ^ (52 - n.log2) := by
      rw [significand, Nat.sub_eq_zero_of_le hd, Nat.pow_zero, roundHalfEven_one]
    have h₁ : 2 ^ n.log2 * 2 ^ (52 - n.log2) = 2 ^ 52 := by
      rw [← Nat.pow_add]
      congr 1
      omega
    have h₂ : 2 ^ (n.log2 + 1) * 2 ^ (52 - n.log2) = 2 ^ 53 := by
      rw [← Nat.pow_add]
      congr 1
      omega
    have hpos : 0 < 2 ^ (52 - n.log2) := Nat.pow_pos (by decide)
    have hle : 2 ^ 52 ≤ n * 2 ^ (52 - n.log2) := h₁ ▸ Nat.mul_le_mul_right _ hlow
    have hlt : n * 2 ^ (52 - n.log2) < 2 ^ 53 := h₂ ▸ Nat.mul_lt_mul_of_pos_right hhigh hpos
    rw [hexact]
    exact ⟨hle, hlt.le, fun _ ↦ hlt⟩
  · have hunit : n * 2 ^ (52 - n.log2) = n := by
      rw [Nat.sub_eq_zero_of_le hd, Nat.pow_zero, Nat.mul_one]
    have h₁ : 2 ^ 52 * 2 ^ (n.log2 - 52) = 2 ^ n.log2 := by
      rw [← Nat.pow_add]
      congr 1
      omega
    have h₂ : 2 ^ 53 * 2 ^ (n.log2 - 52) = 2 ^ (n.log2 + 1) := by
      rw [← Nat.pow_add]
      congr 1
      omega
    have hpos : 0 < 2 ^ (n.log2 - 52) := Nat.pow_pos (by decide)
    have hle : 2 ^ 52 ≤ n / 2 ^ (n.log2 - 52) := (Nat.le_div_iff_mul_le hpos).mpr (h₁ ▸ hlow)
    have hlt : n / 2 ^ (n.log2 - 52) < 2 ^ 53 := (Nat.div_lt_iff_lt_mul hpos).mpr (h₂ ▸ hhigh)
    rw [significand, hunit]
    refine ⟨hle.trans (le_roundHalfEven _ _), (roundHalfEven_le _ _).trans hlt, fun hd' ↦ ?_⟩
    have heq : n.log2 = 52 := le_antisymm hd' hd
    rw [heq, Nat.sub_self, Nat.pow_zero, Nat.div_one] at hlt
    rw [heq, Nat.sub_self, Nat.pow_zero, roundHalfEven_one]
    exact hlt

def natDouble (n : ℕ) : ℕ := (nearestDouble n 0).getD (0x7FF * 2 ^ 52)

theorem natDouble_zero : natDouble 0 = 0 := rfl

theorem natDouble_eq {n : ℕ} (hn : n ≠ 0) (h : n < 2 ^ 64) :
    natDouble n = (n.log2 + 1022) * 2 ^ 52 + significand n := by
  have hlog : n.log2 < 64 := (log2_lt hn).mpr h
  have hbounds := significand_bounds hn
  rw [natDouble, nearestDouble_eq hn (by omega)]
  rfl

theorem natDouble_le_natDouble {n m : ℕ} (h : n < m) (hm : m < 2 ^ 64) :
    natDouble n ≤ natDouble m ∧ (n < 2 ^ 53 → natDouble n < natDouble m) := by
  have hm0 : m ≠ 0 := Nat.ne_zero_of_lt h
  have hmb := significand_bounds hm0
  rw [natDouble_eq hm0 hm]
  rcases Nat.eq_zero_or_pos n with rfl | hn
  · rw [natDouble_zero]
    exact ⟨Nat.zero_le _, fun _ ↦ by omega⟩
  have hn0 : n ≠ 0 := Nat.pos_iff_ne_zero.mp hn
  have hnb := significand_bounds hn0
  rw [natDouble_eq hn0 (h.trans hm)]
  have hlog : n.log2 ≤ m.log2 := by
    rw [le_log2 hm0]
    exact (log2_self_le hn0).trans h.le
  have hsmall (h53 : n < 2 ^ 53) : n.log2 ≤ 52 := le_of_lt_succ ((log2_lt hn0).mpr h53)
  rcases Nat.lt_or_eq_of_le hlog with hlt | heq
  · exact ⟨by omega, fun h53 ↦ by have := hnb.2.2 (hsmall h53); omega⟩
  · have hmul : n * 2 ^ (52 - m.log2) ≤ m * 2 ^ (52 - m.log2) := Nat.mul_le_mul_right _ h.le
    have hmono : significand n ≤ significand m := by
      rw [significand, significand, heq]
      exact roundHalfEven_mono hmul _
    refine ⟨by omega, fun h53 ↦ ?_⟩
    have hd := hsmall h53
    -- up to `2 ^ 53` nothing is rounded
    have hexact {k : ℕ} (hk : k.log2 ≤ 52) : significand k = k * 2 ^ (52 - k.log2) := by
      rw [significand, Nat.sub_eq_zero_of_le hk, Nat.pow_zero, roundHalfEven_one]
    have hpos : 0 < 2 ^ (52 - n.log2) := Nat.pow_pos (by decide)
    have hstrict : n * 2 ^ (52 - n.log2) < m * 2 ^ (52 - n.log2) :=
      Nat.mul_lt_mul_of_pos_right h hpos
    rw [hexact hd, hexact (heq ▸ hd), ← heq]
    omega

/-! ## The order of numbers -/

/-- The place of a finite double in the order of the doubles, from its bits; both zeros have the
place zero. -/
def doublePlace (bits : UInt64) : ℤ :=
  if bits.toNat < 2 ^ 63 then bits.toNat else -((bits.toNat - 2 ^ 63 : ℕ) : ℤ)

def JsonNumber.asF64 : JsonNumber → ℤ
  | .posInt n => natDouble n
  | .negInt n => -natDouble n
  | .float bits => doublePlace bits

/-- Numbers as the program compares them: equality is structural, the order is that of the
doubles. -/
def serdeJson : JsonCompare where
  eq := Json.equal
  lt a b := a.asF64 < b.asF64
  le a b := a.asF64 ≤ b.asF64
  isZero n := n.asF64 = 0

def IsJsonInt (a : ℤ) : Prop := -2 ^ 63 ≤ a ∧ a < 2 ^ 64

def toDouble (a : ℤ) : ℤ := (JsonNumber.ofI64 a).asF64

theorem toDouble_of_nonneg {a : ℤ} (h : 0 ≤ a) : toDouble a = natDouble a.natAbs := by
  rw [toDouble, JsonNumber.ofI64, if_neg h.not_gt]
  rfl

theorem toDouble_of_neg {a : ℤ} (h : a < 0) : toDouble a = -natDouble a.natAbs := by
  rw [toDouble, JsonNumber.ofI64, if_pos h]
  rfl

theorem natDouble_pos {n : ℕ} (hn : 0 < n) (h : n < 2 ^ 64) : 0 < natDouble n :=
  (natDouble_le_natDouble hn h).2 (by decide)

/-- Rounding keeps the order of the integers, strictly up to `2 ^ 53`. -/
theorem toDouble_le_toDouble {a b : ℤ} (ha : IsJsonInt a) (hb : IsJsonInt b) (h : a < b) :
    toDouble a ≤ toDouble b ∧
      (a.natAbs ≤ 2 ^ 53 → b.natAbs ≤ 2 ^ 53 → toDouble a < toDouble b) := by
  obtain ⟨ha₁, ha₂⟩ := ha
  obtain ⟨hb₁, hb₂⟩ := hb
  rcases Int.lt_or_le a 0 with ha0 | ha0
  · rw [toDouble_of_neg ha0]
    have hpos := @natDouble_pos a.natAbs (by omega) (by omega)
    rcases Int.lt_or_le b 0 with hb0 | hb0
    · rw [toDouble_of_neg hb0]
      obtain ⟨hle, hlt⟩ := @natDouble_le_natDouble b.natAbs a.natAbs (by omega) (by omega)
      exact ⟨by omega, fun _ _ ↦ by have := hlt (by omega); omega⟩
    · rw [toDouble_of_nonneg hb0]
      exact ⟨by omega, fun _ _ ↦ by omega⟩
  · have hb0 : 0 ≤ b := ha0.trans h.le
    rw [toDouble_of_nonneg ha0, toDouble_of_nonneg hb0]
    obtain ⟨hle, hlt⟩ := @natDouble_le_natDouble a.natAbs b.natAbs (by omega) (by omega)
    exact ⟨by omega, fun _ _ ↦ by have := hlt (by omega); omega⟩

theorem ofI64_inj {a b : ℤ} : JsonNumber.ofI64 a = JsonNumber.ofI64 b ↔ a = b := by
  refine ⟨fun h ↦ ?_, fun h ↦ h ▸ rfl⟩
  unfold JsonNumber.ofI64 at h
  split_ifs at h with ha hb hb
  · have := JsonNumber.negInt.inj h
    omega
  · have := JsonNumber.posInt.inj h
    omega

theorem equal_ofI64 (a b : ℤ) :
    Json.equal (.number (.ofI64 a)) (.number (.ofI64 b)) = decide (a = b) := by
  have hnormal (a : ℤ) : (JsonNumber.ofI64 a).normal = .ofI64 a := by
    unfold JsonNumber.ofI64
    split <;> rfl
  rw [Json.equal]
  · refine decide_eq_decide.mpr ?_
    rw [Json.label, Json.label, Label.number.injEq, hnormal, hnormal, ofI64_inj]
  all_goals intros; contradiction

theorem lt_of_toDouble_lt {a b : ℤ} (ha : IsJsonInt a) (hb : IsJsonInt b)
    (h : toDouble a < toDouble b) : a < b := by
  by_contra hnot
  rcases lt_or_eq_of_le (not_lt.mp hnot) with hgt | rfl
  · exact absurd (toDouble_le_toDouble hb ha hgt).1 (not_le.mpr h)
  · exact absurd h (lt_irrefl _)

theorem toDouble_lt_iff {a b : ℤ} (ha : IsJsonInt a) (hb : IsJsonInt b)
    (hne : toDouble a ≠ toDouble b) : toDouble a < toDouble b ↔ a < b :=
  ⟨lt_of_toDouble_lt ha hb, fun h ↦ lt_of_le_of_ne (toDouble_le_toDouble ha hb h).1 hne⟩

/-! ## The operators -/

/-- What an operator says about two integers. -/
def CompareOp.holds (op : CompareOp) (a b : ℤ) : Bool :=
  match op with
  | .eq => a = b
  | .ne => a ≠ b
  | .gt => a > b
  | .lt => a < b
  | .ge => a ≥ b
  | .le => a ≤ b

/-- What an operator answers in a condition: equality is about the integers, order about their
doubles. -/
def CompareOp.answer (op : CompareOp) (a b : ℤ) : Bool :=
  match op with
  | .eq => a = b
  | .ne => a ≠ b
  | .gt => toDouble a > toDouble b
  | .lt => toDouble a < toDouble b
  | .ge => toDouble a ≥ toDouble b
  | .le => toDouble a ≤ toDouble b

theorem compareValues_ofI64 (a b : ℤ) (op : CompareOp) :
    compareValues serdeJson (.number (.ofI64 a)) op (.number (.ofI64 b)) = .ok (op.answer a b) := by
  have heq := equal_ofI64 a b
  cases op with
  | eq => exact congrArg Except.ok heq
  | ne =>
    refine congrArg Except.ok ?_
    change (!Json.equal (.number (.ofI64 a)) (.number (.ofI64 b))) = decide (a ≠ b)
    rw [heq, decide_not]
  | gt | lt | ge | le => rfl

/-- The operators say what is true exactly if the two integers are equal or their doubles are not. -/
theorem answer_eq_holds_iff {a b : ℤ} (ha : IsJsonInt a) (hb : IsJsonInt b) :
    (∀ op : CompareOp, op.answer a b = op.holds a b) ↔ a = b ∨ toDouble a ≠ toDouble b := by
  constructor
  · intro h
    by_contra hno
    obtain ⟨hne, heq⟩ := not_or.mp hno
    have heq := not_not.mp heq
    have hlt := h .lt
    have hgt := h .gt
    simp only [CompareOp.answer, CompareOp.holds, heq, lt_irrefl, gt_iff_lt, decide_false] at hlt hgt
    rcases lt_or_gt_of_ne hne with hlt' | hgt'
    · exact absurd (hlt.trans (decide_eq_true hlt')) nofun
    · exact absurd (hgt.trans (decide_eq_true hgt')) nofun
  · rintro (rfl | hne) op
    · cases op <;> simp [CompareOp.answer, CompareOp.holds]
    · have hlt := toDouble_lt_iff ha hb hne
      have hgt := toDouble_lt_iff hb ha hne.symm
      cases op with
      | eq | ne => rfl
      | gt => exact decide_eq_decide.mpr hgt
      | lt => exact decide_eq_decide.mpr hlt
      | ge => exact decide_eq_decide.mpr (not_lt.symm.trans ((not_congr hlt).trans not_lt))
      | le => exact decide_eq_decide.mpr (not_lt.symm.trans ((not_congr hgt).trans not_lt))

/-- **Comparisons of integers.** In a condition `==` and `!=` are exact, and the ordered operators
compare the nearest doubles. So `<=` is the negation of `>` and `>=` that of `<`, an integer that is
said to be less is less, and all six operators agree with the order of the integers exactly if the
two are equal or have different doubles; integers up to `2 ^ 53` do. -/
theorem integer_comparisons {a b : ℤ} (ha : IsJsonInt a) (hb : IsJsonInt b)
    (resolve : List String → Except String Json) {left right : Expr}
    (hleft : evalExpr serdeJson resolve left = .ok (.number (.ofI64 a)))
    (hright : evalExpr serdeJson resolve right = .ok (.number (.ofI64 b))) :
    (∀ op, evalExpr serdeJson resolve (.compare left op right) = .ok (.bool (op.answer a b))) ∧
    CompareOp.answer .le a b = !CompareOp.answer .gt a b ∧
    CompareOp.answer .ge a b = !CompareOp.answer .lt a b ∧
    (CompareOp.answer .lt a b = true → a < b) ∧ (CompareOp.answer .gt a b = true → a > b) ∧
    ((∀ op : CompareOp, op.answer a b = op.holds a b) ↔ a = b ∨ toDouble a ≠ toDouble b) ∧
    (a.natAbs ≤ 2 ^ 53 → b.natAbs ≤ 2 ^ 53 → ∀ op : CompareOp, op.answer a b = op.holds a b) := by
  refine ⟨fun op ↦ ?_, ?_, ?_, fun h ↦ lt_of_toDouble_lt ha hb (of_decide_eq_true h),
    fun h ↦ lt_of_toDouble_lt hb ha (of_decide_eq_true h), answer_eq_holds_iff ha hb, fun ha' hb' ↦ ?_⟩
  · rw [evalExpr, hleft, hright]
    exact congrArg (fun r ↦ r >>= fun b ↦ pure (Json.bool b)) (compareValues_ofI64 a b op)
  · exact (decide_eq_decide.mpr not_lt.symm).trans (decide_not)
  · exact (decide_eq_decide.mpr not_lt.symm).trans (decide_not)
  · rw [answer_eq_holds_iff ha hb]
    rcases lt_trichotomy a b with h | h | h
    · exact .inr ((toDouble_le_toDouble ha hb h).2 ha' hb').ne
    · exact .inl h
    · exact .inr ((toDouble_le_toDouble hb ha h).2 hb' ha').ne'

/-- Two small integers. -/
theorem integer_comparisons_three_five :
    [CompareOp.eq, .ne, .lt, .le, .gt, .ge].map (fun op ↦
      evalExpr serdeJson (fun _ ↦ .error "") (.compare (.literal (.number (.ofI64 3))) op
        (.literal (.number (.ofI64 5))))) =
      [false, true, true, true, false, false].map (.ok ∘ .bool) := by
  have hthree : IsJsonInt 3 := ⟨by decide, by decide⟩
  have hfive : IsJsonInt 5 := ⟨by decide, by decide⟩
  have h := @integer_comparisons 3 5 hthree hfive (fun _ ↦ .error "")
    (.literal (.number (.ofI64 3))) (.literal (.number (.ofI64 5))) rfl rfl
  have hop (op : CompareOp) : evalExpr serdeJson (fun _ ↦ .error "")
      (.compare (.literal (.number (.ofI64 3))) op (.literal (.number (.ofI64 5)))) =
        .ok (.bool (op.holds 3 5)) := by
    rw [h.1 op, h.2.2.2.2.2.2 (by decide) (by decide) op]
  simp only [List.map_cons, List.map_nil, hop]
  rfl

/-- Two integers that round to one double are neither less, nor equal, nor greater. -/
theorem adjacent_integers_not_compared :
    [CompareOp.eq, .ne, .lt, .le, .gt, .ge].map (fun op ↦
      evalExpr serdeJson (fun _ ↦ .error "")
        (.compare (.literal (.number (.ofI64 9007199254740992))) op
          (.literal (.number (.ofI64 9007199254740993))))) =
      [false, true, false, true, false, true].map (.ok ∘ .bool) := by
  have hop (op : CompareOp) : evalExpr serdeJson (fun _ ↦ .error "")
      (.compare (.literal (.number (.ofI64 9007199254740992))) op
        (.literal (.number (.ofI64 9007199254740993)))) =
      .ok (.bool (op.answer 9007199254740992 9007199254740993)) := by
    rw [evalExpr, evalExpr, evalExpr]
    exact congrArg (fun r ↦ r >>= fun b ↦ pure (Json.bool b))
      (compareValues_ofI64 9007199254740992 9007199254740993 op)
  have hanswers : [CompareOp.eq, .ne, .lt, .le, .gt, .ge].map
      (fun op ↦ op.answer 9007199254740992 9007199254740993) =
        [false, true, false, true, false, true] := by
    decide +kernel
  simp only [hop]
  rw [← hanswers, List.map_map]
  rfl

end WaferRun
