import Worksheet.Proofs.Number.Arithmetic
import Worksheet.Proofs.Number.Nearest

/-! Whole numbers as doubles. Below `2 ^ 53` every whole number is a double, and above it every double is whole. Sums,
    products, floors of quotients and remainders of whole doubles are exact as long as nothing in them is too large. -/

namespace Worksheet.Binary

/-! ### Whole doubles -/

theorem withSign_natCast {n : ℕ} (h : n < 2 ^ 53) (negative : Bool) :
    (withSign negative (nearestBits (n * one) 1)).isFinite = true ∧
      value (withSign negative (nearestBits (n * one) 1)) = (if negative then -1 else 1) * n := by
  have hlog : (n * one).log2 ≤ 52 + 1074 := by
    unfold one
    generalize 1074 = k
    by_cases hzero : n * 2 ^ k = 0
    · rw [hzero, Nat.log2_zero]
      exact Nat.zero_le _
    · refine Nat.lt_succ_iff.mp ((Nat.log2_lt hzero).mpr ?_)
      rw [Nat.succ_eq_add_one, add_right_comm, pow_add]
      exact Nat.mul_lt_mul_of_pos_right h (Nat.pow_pos Nat.two_pos)
  have hlt : nearestBits (n * one) 1 < infinityBits := by
    have hcast : (n : ℚ) < 2 ^ 53 := by exact_mod_cast h
    refine nearestBits_lt Nat.one_pos ?_
    rw [Nat.cast_one, div_one]
    linarith [two_pow_lt_overflow]
  have hzeros : 2 ^ 1074 ∣ n * one := by
    unfold one
    generalize 1074 = k
    exact Nat.dvd_mul_left _ _
  obtain ⟨hfinite, hvalue⟩ := withSign_spec negative hlt
  refine ⟨hfinite, ?_⟩
  rw [hvalue, bitsUnits_nearestBits hlog hzeros hlt, Nat.cast_mul, mul_assoc, one_mul_unit, mul_one]

theorem value_ofNat {n : ℕ} (h : n < 2 ^ 53) : (ofNat n).isFinite = true ∧ value (ofNat n) = n := by
  obtain ⟨hfinite, hvalue⟩ := withSign_natCast h false
  exact ⟨hfinite, by rw [← one_mul (n : ℚ)]; exact hvalue⟩

section Whole
variable {x : Float}

/-- The whole part is less than one below a double without its sign. -/
theorem wholePart_bounds (hx : x.isFinite = true) : (wholePart x : ℚ) ≤ |value x| ∧ |value x| < wholePart x + 1 := by
  have hone : (0 : ℚ) < one := by exact_mod_cast one_pos
  have hlt : units x < (wholePart x + 1) * one := Nat.lt_mul_of_div_lt (Nat.lt_succ_self _) one_pos
  rw [abs_value hx, natCast_mul_unit, div_lt_iff₀ hone]
  exact ⟨Nat.cast_div_le, by exact_mod_cast hlt⟩

theorem isWhole_iff (hx : x.isFinite = true) : isWhole x = true ↔ |value x| = wholePart x := by
  have hone : (one : ℚ) ≠ 0 := by exact_mod_cast one_pos.ne'
  rw [abs_value hx, natCast_mul_unit, div_eq_iff hone, ← Nat.cast_mul, Nat.cast_inj]
  unfold isWhole wholePart
  rw [hx, Bool.not_true, Bool.false_or, beq_iff_eq, ← Nat.dvd_iff_mod_eq_zero, Nat.dvd_iff_div_mul_eq, eq_comm]

/-- A double that is equal to its whole part is whole. -/
theorem abs_value_of_truncate (hx : x.isFinite = true) (hlt : |value x| < 2 ^ 53) (h : (x == truncate x) = true) :
    |value x| = wholePart x := by
  unfold truncate at h
  split at h
  · rename_i hwhole
    exact (isWhole_iff hx).mp hwhole
  · have hwhole : (wholePart x : ℚ) < 2 ^ 53 := (wholePart_bounds hx).1.trans_lt hlt
    obtain ⟨hfinite, hvalue⟩ := withSign_natCast (by exact_mod_cast hwhole) (isNegative x)
    rw [(beq_iff_value hx hfinite).mp h, hvalue, abs_mul, Nat.abs_cast]
    split <;> simp

theorem truncate_of_abs_value (hx : x.isFinite = true) {n : ℕ} (h : |value x| = n) :
    truncate x = x ∧ wholePart x = n := by
  have hpart : wholePart x = n := by
    obtain ⟨hle, hlt⟩ := wholePart_bounds hx
    rw [h] at hle hlt
    have hle : wholePart x ≤ n := by exact_mod_cast hle
    have hlt : n < wholePart x + 1 := by exact_mod_cast hlt
    omega
  exact ⟨if_pos ((isWhole_iff hx).mpr (by rw [h, hpart])), hpart⟩

end Whole

/-- A double is a multiple of the last bit of those of its size. -/
theorem exists_mul_two_pow {x : Float} (hx : x.isFinite = true) (j : ℕ) (h : 2 ^ (52 + j) ≤ |value x|) :
    ∃ n : ℕ, |value x| = n * 2 ^ j := by
  obtain ⟨m, f, hm, hunits⟩ := exists_units x.toBits.toNat
  rw [← units_eq] at hunits
  rw [abs_value hx, natCast_mul_unit] at h ⊢
  have hone : (0 : ℚ) < one := by exact_mod_cast one_pos
  rw [le_div_iff₀ hone] at h
  have hle : 2 ^ (52 + j) * one ≤ units x := by exact_mod_cast h
  obtain ⟨d, hd⟩ : ∃ d, units x = d * 2 ^ j * one := by
    revert hle
    rw [hunits]
    unfold one
    generalize 1074 = k
    intro hle
    have hk : j + k ≤ f := by
      have hlt : 2 ^ (52 + j + k) < 2 ^ (53 + f) := by
        rw [pow_add _ _ k, pow_add _ _ f]
        exact hle.trans_lt (Nat.mul_lt_mul_of_pos_right hm (Nat.two_pow_pos f))
      have hlt := (Nat.pow_lt_pow_iff_right Nat.one_lt_two).mp hlt
      omega
    refine ⟨m * 2 ^ (f - (j + k)), ?_⟩
    rw [Nat.mul_assoc, Nat.mul_assoc, ← Nat.pow_add, ← Nat.pow_add, Nat.sub_add_cancel hk]
  exact ⟨d, by rw [hd, Nat.cast_mul, mul_div_cancel_right₀ _ hone.ne', Nat.cast_mul, Nat.cast_pow, Nat.cast_ofNat]⟩

/-- A double from `2 ^ 53` on is whole. -/
theorem exists_natCast {x : Float} (hx : x.isFinite = true) (h : 2 ^ 53 ≤ |value x|) : ∃ n : ℕ, |value x| = n := by
  obtain ⟨n, hn⟩ := exists_mul_two_pow hx 0 (by norm_num; linarith)
  exact ⟨n, by rw [hn, pow_zero, mul_one]⟩

/-- The sign bit of a double that is not zero. -/
theorem isNegative_eq {x : Float} (hx : x.isFinite = true) (hne : value x ≠ 0) :
    isNegative x = decide (value x < 0) := by
  have hvalue := value_eq_units hx
  have hpos : 0 < |value x| := abs_pos.mpr hne
  rw [abs_value hx] at hpos
  cases hsign : isNegative x with
  | true =>
    rw [hsign, if_pos rfl, neg_one_mul] at hvalue
    exact (decide_eq_true (by linarith)).symm
  | false =>
    rw [hsign, if_neg Bool.false_ne_true, one_mul] at hvalue
    exact (decide_eq_false (by linarith)).symm

theorem value_ofInt {n : ℤ} (h : |n| < 2 ^ 53) : value (ofInt n) = n := by
  rw [Int.abs_eq_natAbs] at h
  obtain ⟨-, hvalue⟩ := withSign_natCast (n := n.natAbs) (by omega) (decide (n < 0))
  refine hvalue.trans ?_
  simp only [decide_eq_true_eq, Nat.cast_natAbs]
  split
  · rename_i hneg
    rw [abs_of_neg hneg]
    push_cast
    ring
  · rename_i hneg
    rw [abs_of_nonneg (not_lt.mp hneg), one_mul]

/-! ### Rounding to integers -/

section Integers
variable {x : Float}

/-- Rounding down is exact. -/
theorem value_floor (hx : x.isFinite = true) (hlt : |value x| < 2 ^ 52) :
    (floor x).isFinite = true ∧ value (floor x) = ⌊value x⌋ := by
  obtain ⟨hle, hge⟩ := wholePart_bounds hx
  have hsmall : (wholePart x : ℚ) + 1 < (2 ^ 53 : ℕ) := by
    push_cast
    linarith
  have hsmall : wholePart x + 1 < 2 ^ 53 := by exact_mod_cast hsmall
  -- A whole double is kept.
  have hkept (hwhole : isWhole x = true) : value x = ⌊value x⌋ := by
    have habs := (isWhole_iff hx).mp hwhole
    rcases (abs_eq (Nat.cast_nonneg _)).mp habs with h | h
    · rw [h, Int.floor_natCast, Int.cast_natCast]
    · rw [h, ← Int.cast_natCast, ← Int.cast_neg, Int.floor_intCast]
  have hsign := value_eq_units hx
  rw [← abs_value hx] at hsign
  unfold floor expand truncate
  cases hnegative : isNegative x with
  | true =>
    rw [hnegative, if_pos rfl, neg_one_mul] at hsign
    rw [if_pos rfl]
    split
    · rename_i hwhole
      exact ⟨hx, hkept hwhole⟩
    · rename_i hwhole
      have hne : |value x| ≠ wholePart x := fun h => hwhole ((isWhole_iff hx).mpr h)
      obtain ⟨hfinite, hvalue⟩ := withSign_natCast hsmall true
      refine ⟨hfinite, hvalue.trans ?_⟩
      have hfloor : ⌊value x⌋ = -((wholePart x : ℤ) + 1) := by
        rw [Int.floor_eq_iff, hsign]
        push_cast
        exact ⟨by linarith, by linarith [lt_of_le_of_ne hle hne.symm]⟩
      rw [hfloor, if_pos rfl]
      push_cast
      ring
  | false =>
    rw [hnegative, if_neg Bool.false_ne_true, one_mul] at hsign
    rw [if_neg Bool.false_ne_true]
    split
    · rename_i hwhole
      exact ⟨hx, hkept hwhole⟩
    · obtain ⟨hfinite, hvalue⟩ := withSign_natCast (Nat.lt_of_succ_lt hsmall) false
      refine ⟨hfinite, hvalue.trans ?_⟩
      have hfloor : ⌊value x⌋ = (wholePart x : ℤ) := by
        rw [Int.floor_eq_iff, hsign]
        exact ⟨by exact_mod_cast hle, by exact_mod_cast hge⟩
      rw [hfloor, if_neg Bool.false_ne_true, one_mul, Int.cast_natCast]

/-- What a whole double is rounded to toward zero. -/
theorem truncated_of_value (hx : x.isFinite = true) {n : ℤ} (h : value x = n) : truncated x = n := by
  have habs : |value x| = n.natAbs := by rw [h, ← Int.cast_abs, ← Int.natCast_natAbs, Int.cast_natCast]
  have hpart : wholePart x = n.natAbs := (truncate_of_abs_value hx habs).2
  unfold truncated
  rw [hpart]
  by_cases hzero : value x = 0
  · have hzero : n = 0 := by rwa [h, Int.cast_eq_zero] at hzero
    simp [hzero]
  · rw [isNegative_eq hx hzero, h]
    simp only [Int.cast_lt_zero, decide_eq_true_eq]
    split <;> omega

theorem toInt32_eq (hx : x.isFinite = true) {n : ℤ} (h : value x = n) (hlow : -2 ^ 31 ≤ n) (hhigh : n < 2 ^ 31) :
    toInt32 x = n := by
  unfold toInt32
  dsimp only
  rw [truncated_of_value hx h, hx, Bool.true_and, if_pos]
  simp only [Bool.and_eq_true, decide_eq_true_eq]
  exact ⟨hlow, hhigh⟩

end Integers

/-! ### Arithmetic of integers -/

/-- The double is exactly the integer `n`. -/
def Exactly (x : Float) (n : ℤ) : Prop := x.isFinite = true ∧ value x = n

section Exactly
variable {x y : Float} {a b n : ℤ}

theorem exactly_ofInt (h : -2 ^ 53 < n ∧ n < 2 ^ 53) : Exactly (ofInt n) n :=
  ⟨(withSign_natCast (by omega) (decide (n < 0))).1, value_ofInt (abs_lt.mpr h)⟩

theorem Exactly.le_iff (hx : Exactly x a) (hy : Exactly y b) : x ≤ y ↔ a ≤ b := by
  rw [le_iff_value hx.1 hy.1, hx.2, hy.2, Int.cast_le]

theorem Exactly.lt_iff (hx : Exactly x a) (hy : Exactly y b) : x < y ↔ a < b := by
  rw [lt_iff_value hx.1 hy.1, hx.2, hy.2, Int.cast_lt]

/-- A number as it is written in the program. -/
theorem exactly_of_beq (h : -2 ^ 53 < n ∧ n < 2 ^ 53) (heq : (x == ofInt n) = true) : Exactly x n := by
  obtain ⟨hfinite, hvalue⟩ := exactly_ofInt h
  have hx := isFinite_of_beq heq hfinite
  exact ⟨hx, ((beq_iff_value hx hfinite).mp heq).trans hvalue⟩

/-- An integer below `2 ^ 53` is rounded to itself. -/
theorem Rounds.exactly {q : ℚ} (h : Rounds q x) (hq : q = n) (hn : -2 ^ 53 < n ∧ n < 2 ^ 53) : Exactly x n := by
  obtain ⟨hfinite, hvalue⟩ := exactly_ofInt hn
  rw [← hvalue] at hq
  obtain ⟨hx, hle, hge⟩ := h.between hfinite hfinite hq.ge hq.le
  exact ⟨hx, (le_antisymm hge hle).trans hvalue⟩

theorem Exactly.add (hx : Exactly x a) (hy : Exactly y b) (h : -2 ^ 53 < a + b ∧ a + b < 2 ^ 53) :
    Exactly (x + y) (a + b) :=
  (rounds_add hx.1 hy.1).exactly (by rw [hx.2, hy.2, Int.cast_add]) h

theorem Exactly.sub (hx : Exactly x a) (hy : Exactly y b) (h : -2 ^ 53 < a - b ∧ a - b < 2 ^ 53) :
    Exactly (x - y) (a - b) :=
  (rounds_sub hx.1 hy.1).exactly (by rw [hx.2, hy.2, Int.cast_sub]) h

theorem Exactly.mul (hx : Exactly x a) (hy : Exactly y b) (h : -2 ^ 53 < a * b ∧ a * b < 2 ^ 53) :
    Exactly (x * y) (a * b) :=
  (rounds_mul hx.1 hy.1).exactly (by rw [hx.2, hy.2, Int.cast_mul]) h

/-- A quotient that is rounded stays below the next integer: the quotient is a part of the divisor away from it, and the
    error is less. -/
theorem quotient_bounds (hx : Exactly x a) (hy : Exactly y b) (hb : 0 < b) (ha : -2 ^ 51 < a ∧ a < 2 ^ 51)
    (hlt : b < 2 ^ 51) :
    (x / y).isFinite = true ∧ ((a / b : ℤ) : ℚ) ≤ value (x / y) ∧ value (x / y) < (a / b : ℤ) + 1 := by
  have hbQ : (0 : ℚ) < b := by exact_mod_cast hb
  have haQ : |(a : ℚ)| < 2 ^ 51 := by exact_mod_cast abs_lt.mpr ha
  have hltQ : (b : ℚ) < 2 ^ 51 := by exact_mod_cast hlt
  have hrounds := rounds_div hx.1 hy.1 (by rw [hy.2]; exact hbQ.ne')
  rw [hx.2, hy.2] at hrounds
  have habs : |(a : ℚ) / b| * b = |(a : ℚ)| := by rw [abs_div, abs_of_pos hbQ, div_mul_cancel₀ _ hbQ.ne']
  have hsize : |(a : ℚ) / b| ≤ |(a : ℚ)| := by
    have hone : (1 : ℚ) ≤ b := by exact_mod_cast hb
    rw [← habs]
    exact le_mul_of_one_le_right (abs_nonneg _) hone
  have hfinite : (x / y).isFinite = true := hrounds.isFinite_iff.mpr (by linarith [two_pow_lt_overflow])
  have hbelow : ((a / b : ℤ) : ℚ) ≤ a / b := by
    rw [le_div_iff₀ hbQ]
    exact_mod_cast Int.ediv_mul_le a hb.ne'
  have habove : ((a : ℚ) / b) * b + 1 ≤ ((a / b : ℤ) + 1) * b := by
    rw [div_mul_cancel₀ _ hbQ.ne']
    exact_mod_cast Int.lt_ediv_add_one_mul_self a hb
  obtain ⟨hwhole, hvalue⟩ := exactly_ofInt (n := a / b)
    (abs_lt.mp ((Int.abs_ediv_le_abs a b).trans_lt ((abs_lt.mpr ha).trans (by norm_num))))
  refine ⟨hfinite, hvalue ▸ hrounds.le_of_le hfinite _ hwhole (hvalue ▸ hbelow), ?_⟩
  have herror := (abs_le.mp ((hrounds.error hfinite).trans (add_le_add_right tiny_le _))).2
  have hscaled : (value (x / y) - a / b) * b ≤ |(a : ℚ)| / 2 ^ 53 + 1 / 10 ^ 30 * b := by
    rw [← habs]
    calc (value (x / y) - a / b) * b ≤ (|(a : ℚ) / b| / 2 ^ 53 + 1 / 10 ^ 30) * b :=
          mul_le_mul_of_nonneg_right herror hbQ.le
      _ = |(a : ℚ) / b| * b / 2 ^ 53 + 1 / 10 ^ 30 * b := by ring
  refine lt_of_mul_lt_mul_right ?_ hbQ.le
  linarith

/-- The floor of a quotient of integers is exact. -/
theorem Exactly.floor_div (hx : Exactly x a) (hy : Exactly y b) (hb : 0 < b) (ha : -2 ^ 51 < a ∧ a < 2 ^ 51)
    (hlt : b < 2 ^ 51) : Exactly (Binary.floor (x / y)) (a / b) := by
  obtain ⟨hfinite, hle, hless⟩ := quotient_bounds hx hy hb ha hlt
  have hsize : |((a / b : ℤ) : ℚ)| < 2 ^ 51 := by
    exact_mod_cast (Int.abs_ediv_le_abs a b).trans_lt (abs_lt.mpr ha)
  rw [abs_lt] at hsize
  obtain ⟨hfloor, hvalue⟩ := value_floor hfinite (by rw [abs_lt]; constructor <;> linarith)
  exact ⟨hfloor, by rw [hvalue, Int.floor_eq_iff.mpr ⟨hle, hless⟩]⟩

theorem Exactly.toInt32_eq (hx : Exactly x n) (hlow : -2 ^ 31 ≤ n) (hhigh : n < 2 ^ 31) :
    Binary.toInt32 x = n :=
  Binary.toInt32_eq hx.1 hx.2 hlow hhigh

/-- An integer is its own floor. -/
theorem Exactly.floor (hx : Exactly x n) (h : -2 ^ 52 < n ∧ n < 2 ^ 52) : Exactly (Binary.floor x) n := by
  obtain ⟨hfinite, hvalue⟩ := value_floor hx.1 (by rw [hx.2]; exact_mod_cast abs_lt.mpr h)
  exact ⟨hfinite, by rw [hvalue, hx.2, Int.floor_intCast]⟩

/-- An integer is kept when it is rounded: a half more is rounded to less than one more. -/
theorem Exactly.round (hx : Exactly x n) (h : -2 ^ 51 < n ∧ n < 2 ^ 51) : Exactly (Binary.round x) n := by
  have hsize : |(n : ℚ)| < 2 ^ 51 := by exact_mod_cast abs_lt.mpr h
  have hrounds := rounds_add (y := 0.5) hx.1 rfl
  rw [hx.2, value_half] at hrounds
  have hhalf : |(n : ℚ) + 1 / 2| ≤ 2 ^ 51 + 1 := by
    have htriangle := abs_add_le (n : ℚ) (1 / 2)
    rw [abs_of_pos (by norm_num : (0 : ℚ) < 1 / 2)] at htriangle
    linarith
  have hfinite : (x + 0.5).isFinite = true := hrounds.isFinite_iff.mpr (by linarith [two_pow_lt_overflow])
  have herror := abs_le.mp ((hrounds.error hfinite).trans (add_le_add_right tiny_le _))
  rw [abs_lt] at hsize
  obtain ⟨hfloor, hvalue⟩ := value_floor hfinite (by rw [abs_lt]; constructor <;> linarith)
  exact ⟨hfloor, hvalue.trans (congrArg _ (Int.floor_eq_iff.mpr ⟨by linarith, by linarith⟩))⟩

theorem Exactly.units (hx : Exactly x n) : Binary.units x = n.natAbs * one := by
  have hone : (one : ℚ) ≠ 0 := by exact_mod_cast one_pos.ne'
  have habs := abs_value hx.1
  rw [hx.2, natCast_mul_unit, eq_div_iff hone, ← Int.cast_abs, Int.abs_eq_natAbs, Int.cast_natCast] at habs
  exact_mod_cast habs.symm

/-- The remainder of a division of natural numbers is exact. -/
theorem Exactly.remainder (hx : Exactly x a) (hy : Exactly y b) (ha : 0 ≤ a) (hb : 0 < b) (hlt : b < 2 ^ 53) :
    Exactly (Binary.remainder x y) (a % b) := by
  have hzero : (y == 0) = false := by
    rw [← Bool.not_eq_true, beq_iff_value hy.1 rfl, hy.2, value_zero]
    exact_mod_cast hb.ne'
  have hunits : Binary.remainder x y = ofUnits (isNegative x) (a.natAbs % b.natAbs * one) := by
    unfold Binary.remainder
    rw [isNaN_of_isFinite hx.1, isNaN_of_isFinite hy.1, isInf_of_isFinite hx.1, isInf_of_isFinite hy.1, hzero, hx.units,
      hy.units, Nat.mul_mod_mul_right]
    rfl
  obtain ⟨hfinite, hvalue⟩ := withSign_natCast (n := a.natAbs % b.natAbs)
    ((Nat.mod_lt _ (by omega)).trans (by omega)) (isNegative x)
  have hcast : ((a.natAbs % b.natAbs : ℕ) : ℤ) = a % b := by
    rw [Int.natCast_mod, Int.natAbs_of_nonneg ha, Int.natAbs_of_nonneg hb.le]
  rw [hunits]
  refine ⟨hfinite, hvalue.trans ?_⟩
  by_cases hpos : value x = 0
  · obtain rfl : a = 0 := by rwa [hx.2, Int.cast_eq_zero] at hpos
    simp
  · have hsign : ¬value x < 0 := by
      rw [hx.2, not_lt]
      exact_mod_cast ha
    rw [isNegative_eq hx.1 hpos, decide_eq_false hsign, if_neg Bool.false_ne_true, one_mul, ← hcast, Int.cast_natCast]

end Exactly

end Worksheet.Binary
