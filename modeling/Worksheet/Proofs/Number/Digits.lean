import Worksheet.Proofs.Number.Arithmetic
import Worksheet.Proofs.Number.Nearest
import Worksheet.Proofs.Number.Reading

/-! Decimal digits of a double. A numeral shows the multiple of a power of ten that the double is rounded to. The double
    that the numeral is read as is no farther from what is shown, so it is rounded to the same multiple. -/

namespace Worksheet
open Binary

/-! ### Digits of a natural number -/

/-- As many digits are written as the number has. -/
theorem Text.length_ofNat (n : ℕ) : n < 10 ^ (ofNat n).length ∧ 0 < (ofNat n).length ∧
    (n ≠ 0 → 10 ^ ((ofNat n).length - 1) ≤ n) := by
  induction n using Nat.strong_induction_on with
  | _ n ih =>
    unfold ofNat at ih ⊢
    rw [Nat.toDigits_eq_if (by decide)]
    split
    · rename_i hlt
      exact ⟨by simpa using hlt, Nat.one_pos, fun hne => by simpa using Nat.one_le_iff_ne_zero.mpr hne⟩
    · rename_i hge
      obtain ⟨hlt, hpos, hle⟩ := ih (n / 10) (by omega)
      have hle := hle (by omega)
      rw [List.length_append, List.length_singleton, Nat.add_sub_cancel]
      refine ⟨?_, Nat.succ_pos _, fun _ => ?_⟩
      · rw [pow_succ]
        omega
      · obtain ⟨k, hk⟩ : ∃ k, (Nat.toDigits 10 (n / 10)).length = k + 1 := ⟨_, (Nat.succ_pred_eq_of_pos hpos).symm⟩
        rw [hk, Nat.add_sub_cancel] at hle
        rw [hk, pow_succ]
        omega

/-- Only zeros denote zero. -/
theorem Text.all_zero_of_toNat {t : Text} (ht : ∀ c ∈ t, Byte.isDigit c = true) (h : toNat t = 0) :
    t.all (· == '0') = true := by
  induction t using List.reverseRecOn with
  | nil => rfl
  | append_singleton t c ih =>
    rw [toNat_concat] at h
    have hc : c = '0' := by
      have hdigit := ht c (by simp)
      simp only [Byte.isDigit, Bool.and_eq_true, decide_eq_true_eq, Char.le_def, UInt32.le_iff_toNat_le] at hdigit
      have hle : 48 ≤ c.toNat := hdigit.1
      have hzero : c.toNat - 48 = 0 := (Nat.add_eq_zero_iff.mp h).2
      exact Char.ext (UInt32.toNat_inj.mp (show c.toNat = 48 by omega))
    rw [List.all_append, ih (fun d hd => ht d (by simp [hd])) (by omega), hc]
    rfl

namespace Decimal

theorem digitCount_spec (n : ℕ) :
    n < 10 ^ digitCount n ∧ (n ≠ 0 → 0 < digitCount n ∧ 10 ^ (digitCount n - 1) ≤ n) := by
  obtain ⟨hlt, hpos, hle⟩ := Text.length_ofNat n
  unfold digitCount
  split
  · rename_i hzero
    exact ⟨by rw [hzero]; exact Nat.one_pos, fun hne => absurd hzero hne⟩
  · exact ⟨hlt, fun hne => ⟨hpos, hle hne⟩⟩

theorem length_padded {width n : ℕ} (h : n < 10 ^ width) (hwidth : 0 < width) : (padded width n).length = width := by
  have hlength : (Text.ofNat n).length ≤ width := Nat.toDigits_length 10 n width hwidth h
  unfold padded
  dsimp only
  rw [List.length_append, List.length_replicate]
  omega

/-! ### The double nearest to a decimal -/

/-- The number that a decimal is. -/
def rat (d : Decimal) : ℚ := d.coefficient * 10 ^ d.exponent

theorem rat_nonneg (d : Decimal) : 0 ≤ d.rat := by unfold rat; positivity

theorem two_mul_le_unit : 2 * (10 : ℚ) ^ (-331 : ℤ) ≤ unit := by
  have hpowers : 2 * 2 ^ 1074 ≤ 10 ^ 331 := by decide +kernel
  have hscale (n k : ℕ) (h : 2 * 2 ^ n ≤ 10 ^ k) : 2 * (10 : ℚ) ^ (-(k : ℤ)) ≤ 2 ^ (-(n : ℤ)) := by
    have hcast : (2 : ℚ) * 2 ^ n ≤ 10 ^ k := by exact_mod_cast h
    rw [zpow_neg, zpow_neg, zpow_natCast, zpow_natCast, ← one_div, ← one_div, mul_one_div,
      div_le_div_iff₀ (by positivity) (by positivity)]
    linarith
  exact hscale 1074 331 hpowers

/-- A decimal is below the power of ten behind its first digit. -/
theorem rat_lt (d : Decimal) : d.rat < 10 ^ ((digitCount d.coefficient : ℤ) + d.exponent) := by
  have hcast : (d.coefficient : ℚ) < 10 ^ digitCount d.coefficient := by exact_mod_cast (digitCount_spec d.coefficient).1
  rw [zpow_add₀ (by norm_num), zpow_natCast]
  exact mul_lt_mul_of_pos_right hcast (by positivity)

/-- The first digit of a decimal that is not zero is at least one. -/
theorem le_rat {d : Decimal} (h : d.coefficient ≠ 0) :
    10 ^ ((digitCount d.coefficient : ℤ) + d.exponent - 1) ≤ d.rat := by
  obtain ⟨hpos, hle⟩ := (digitCount_spec d.coefficient).2 h
  have hcast : (10 : ℚ) ^ (digitCount d.coefficient - 1) ≤ d.coefficient := by exact_mod_cast hle
  have hscaled := mul_le_mul_of_nonneg_right hcast (by positivity : (0 : ℚ) ≤ 10 ^ d.exponent)
  rwa [← zpow_natCast, ← zpow_add₀ (by norm_num), show ((digitCount d.coefficient - 1 : ℕ) : ℤ) + d.exponent =
    digitCount d.coefficient + d.exponent - 1 by omega] at hscaled

/-- A decimal that is not zero is made of a quotient, unless its first digit is far away. -/
theorem toFloat_eq {d : Decimal} (hne : d.coefficient ≠ 0) : ∃ num den : ℕ, 0 < den ∧ (num : ℚ) / den = d.rat ∧
    d.toFloat = if digitCount d.coefficient + d.exponent < -330 then 0
      else if 310 < digitCount d.coefficient + d.exponent then infinity else ofRatio false num den := by
  unfold toFloat
  dsimp only
  simp only [hne, decide_false, Bool.false_or, decide_eq_true_eq]
  by_cases hexp : 0 ≤ d.exponent
  · simp only [if_pos hexp]
    refine ⟨_, 1, Nat.one_pos, ?_, rfl⟩
    obtain ⟨k, hk⟩ := Int.eq_ofNat_of_zero_le hexp
    rw [rat, hk, Int.toNat_natCast, Nat.cast_one, div_one, zpow_natCast, Nat.cast_mul, Nat.cast_pow, Nat.cast_ofNat]
  · simp only [if_neg hexp]
    refine ⟨_, _, Nat.pow_pos (by decide : 0 < 10), ?_, rfl⟩
    obtain ⟨k, hk⟩ := Int.eq_ofNat_of_zero_le (by omega : 0 ≤ -d.exponent)
    rw [rat, hk, Int.toNat_natCast, Nat.cast_pow, Nat.cast_ofNat, show d.exponent = -(k : ℤ) by omega, zpow_neg, zpow_natCast,
      div_eq_mul_inv]

theorem rat_eq_zero {d : Decimal} : d.rat = 0 ↔ d.coefficient = 0 := by
  have hpower : (10 : ℚ) ^ d.exponent ≠ 0 := by positivity
  rw [rat, mul_eq_zero, or_iff_left hpower, Nat.cast_eq_zero]

theorem toFloat_of_coefficient_eq_zero {d : Decimal} (h : d.coefficient = 0) : d.toFloat = 0 := if_pos (by simp [h])

/-- Decimals of the same number have the same double. -/
theorem toFloat_congr {d d' : Decimal} (h : d.rat = d'.rat) : d.toFloat = d'.toFloat := by
  by_cases hzero : d.coefficient = 0
  · have hzero' : d'.coefficient = 0 := rat_eq_zero.mp (h ▸ rat_eq_zero.mpr hzero)
    rw [toFloat_of_coefficient_eq_zero hzero, toFloat_of_coefficient_eq_zero hzero']
  · have hzero' : d'.coefficient ≠ 0 := fun hzero' => hzero (rat_eq_zero.mp (h ▸ rat_eq_zero.mpr hzero'))
    have hbelow {d d' : Decimal} (h : d.rat = d'.rat) (hne : d.coefficient ≠ 0) :
        (digitCount d.coefficient : ℤ) + d.exponent ≤ digitCount d'.coefficient + d'.exponent := by
      have hlt := (le_rat hne).trans_lt (h ▸ d'.rat_lt)
      have hlt := (zpow_lt_zpow_iff_right₀ (by norm_num)).mp hlt
      omega
    have htop := le_antisymm (hbelow h hzero) (hbelow h.symm hzero')
    obtain ⟨num, den, hden, hrat, heq⟩ := toFloat_eq hzero
    obtain ⟨num', den', hden', hrat', heq'⟩ := toFloat_eq hzero'
    rw [heq, heq', htop, ofRatio_congr hden hden' (by rw [hrat, hrat', h])]

theorem isNaN_toFloat (d : Decimal) : d.toFloat.isNaN = false := by
  by_cases hzero : d.coefficient = 0
  · rw [toFloat_of_coefficient_eq_zero hzero]
    rfl
  · obtain ⟨num, den, -, -, heq⟩ := toFloat_eq hzero
    rw [heq]
    split
    · rfl
    · split
      · decide +kernel
      · exact isNaN_ofRatio false num den

/-- The double of a decimal is made of a quotient, or it is zero for less than half a unit, or it is infinity. -/
theorem toFloat_cases (d : Decimal) : (d.toFloat = 0 ∧ 2 * d.rat ≤ unit) ∨
    (d.toFloat.isFinite = false ∧ 10 ^ (310 : ℤ) ≤ d.rat) ∨
      ∃ num den, 0 < den ∧ d.toFloat = ofRatio false num den ∧ (num : ℚ) / den = d.rat := by
  by_cases hzero : d.coefficient = 0
  · rw [rat_eq_zero.mpr hzero, mul_zero]
    exact .inl ⟨toFloat_of_coefficient_eq_zero hzero, unit_pos.le⟩
  · obtain ⟨num, den, hden, hrat, heq⟩ := toFloat_eq hzero
    rw [heq]
    split
    · have hle : (10 : ℚ) ^ ((digitCount d.coefficient : ℤ) + d.exponent) ≤ 10 ^ (-331 : ℤ) :=
        zpow_le_zpow_right₀ (by norm_num) (by omega)
      exact .inl ⟨rfl, by linarith [d.rat_lt, two_mul_le_unit]⟩
    · refine .inr ?_
      split
      · exact .inl ⟨not_isFinite_infinityBits false, (zpow_le_zpow_right₀ (by norm_num) (by omega)).trans (le_rat hzero)⟩
      · exact .inr ⟨num, den, hden, rfl, hrat⟩

theorem overflow_le : overflow ≤ 10 ^ (310 : ℤ) := by
  have hpowers : 2 ^ 54 * 2 ^ 970 ≤ 10 ^ 310 := by decide +kernel
  have hscale (n k : ℕ) (h : 2 ^ 54 * 2 ^ n ≤ 10 ^ k) : (2 ^ 54 - 1) * (2 : ℚ) ^ (n : ℤ) ≤ 10 ^ (k : ℤ) := by
    have hcast : (2 : ℚ) ^ 54 * 2 ^ n ≤ 10 ^ k := by exact_mod_cast h
    have hpos : (0 : ℚ) < 2 ^ n := by positivity
    rw [zpow_natCast, zpow_natCast]
    linarith
  exact hscale 970 310 hpowers

theorem isFinite_toFloat {d : Decimal} (h : d.rat < overflow) : d.toFloat.isFinite = true := by
  rcases d.toFloat_cases with ⟨hzero, -⟩ | ⟨-, hlarge⟩ | ⟨num, den, hden, heq, hrat⟩
  · rw [hzero]
    rfl
  · exact absurd (overflow_le.trans hlarge) (not_le.mpr h)
  · rw [← hrat] at h
    rw [heq]
    exact (withSign_spec false (nearestBits_lt hden h)).1

/-- No double is nearer to a decimal than the one that it is read as. -/
theorem toFloat_nearest {d : Decimal} (h : d.toFloat.isFinite = true) {y : Float} (hy : y.isFinite = true) :
    0 ≤ Binary.value d.toFloat ∧ |Binary.value d.toFloat - d.rat| ≤ |Binary.value y - d.rat| := by
  rcases d.toFloat_cases with ⟨hzero, hsmall⟩ | ⟨hinfinite, -⟩ | ⟨num, den, hden, heq, hrat⟩
  · rw [hzero, value_zero, zero_sub, abs_neg, abs_of_nonneg d.rat_nonneg]
    refine ⟨le_rfl, ?_⟩
    by_cases hne : Binary.value y = 0
    · rw [hne, zero_sub, abs_neg]
      exact le_abs_self _
    · have hunit := unit_le_abs hy hne
      have htriangle := abs_sub_abs_le_abs_sub (Binary.value y) d.rat
      rw [abs_of_nonneg d.rat_nonneg] at htriangle
      linarith
  · rw [h] at hinfinite
    cases hinfinite
  · rw [heq] at h ⊢
    rw [← hrat]
    exact ofRatio_nearest hden h hy

/-- How far a decimal is from the double that it is read as. -/
theorem toFloat_error {d : Decimal} (h : d.toFloat.isFinite = true) :
    |Binary.value d.toFloat - d.rat| ≤ d.rat / 2 ^ 53 + 1 / 2 * unit := by
  rcases d.toFloat_cases with ⟨hzero, hsmall⟩ | ⟨hinfinite, -⟩ | ⟨num, den, hden, heq, hrat⟩
  · rw [hzero, value_zero, zero_sub, abs_neg, abs_of_nonneg d.rat_nonneg]
    have hnonneg : 0 ≤ d.rat / 2 ^ 53 := div_nonneg d.rat_nonneg (by positivity)
    linarith
  · rw [h] at hinfinite
    cases hinfinite
  · rw [heq] at h ⊢
    rw [← hrat]
    exact ofRatio_error hden h

/-! ### Digits of a double -/

/-- A double of `units` has its first digit at the place of its order. -/
theorem order_spec {units : ℕ} (h : units ≠ 0) :
    (10 : ℚ) ^ order units ≤ units * unit ∧ (units : ℚ) * unit < 10 ^ (order units + 1) := by
  have hone : (0 : ℚ) < one := by exact_mod_cast Binary.one_pos
  rw [natCast_mul_unit]
  unfold order
  generalize one = d at hone ⊢
  split
  · obtain ⟨hlt, hle⟩ := digitCount_spec (units / d)
    have hd : 0 < d := by exact_mod_cast hone
    rename_i hlarge
    obtain ⟨hpos, hle⟩ := hle (Nat.div_pos hlarge hd).ne'
    have hbelow : units < 10 ^ digitCount (units / d) * d := (Nat.div_lt_iff_lt_mul hd).mp hlt
    have habove : 10 ^ (digitCount (units / d) - 1) * d ≤ units := (Nat.le_div_iff_mul_le hd).mp hle
    generalize digitCount (units / d) = k at hpos hbelow habove
    rw [show (k : ℤ) - 1 = ((k - 1 : ℕ) : ℤ) by omega, show ((k - 1 : ℕ) : ℤ) + 1 = (k : ℤ) by omega, zpow_natCast,
      zpow_natCast, le_div_iff₀ hone, div_lt_iff₀ hone]
    exact ⟨by exact_mod_cast habove, by exact_mod_cast hbelow⟩
  · -- The reciprocal, rounded up, has one digit more than the places in front of the first digit.
    rename_i hsmall
    have hu : 0 < units := Nat.pos_of_ne_zero h
    obtain ⟨m, hm, hlow, hhigh⟩ : ∃ m, (d + units - 1) / units - 1 = m ∧ m * units < d ∧ d ≤ (m + 1) * units := by
      refine ⟨_, rfl, ?_⟩
      have hdiv := Nat.div_add_mod (d + units - 1) units
      have hmod := Nat.mod_lt (d + units - 1) hu
      obtain ⟨k, hk⟩ : ∃ k, (d + units - 1) / units = k + 1 :=
        ⟨_, (Nat.succ_pred_eq_of_pos (Nat.div_pos (by omega) hu)).symm⟩
      rw [hk, Nat.mul_comm, Nat.succ_mul] at hdiv
      rw [hk, Nat.add_sub_cancel, Nat.succ_mul]
      omega
    have hne : m ≠ 0 := by
      rintro rfl
      omega
    rw [hm]
    obtain ⟨hlt, hle⟩ := digitCount_spec m
    obtain ⟨hpos, hle⟩ := hle hne
    have hbelow : d ≤ 10 ^ digitCount m * units := hhigh.trans (Nat.mul_le_mul_right _ hlt)
    have habove : 10 ^ (digitCount m - 1) * units < d := (Nat.mul_le_mul_right _ hle).trans_lt hlow
    generalize digitCount m = k at hpos hbelow habove
    have hbelow : (d : ℚ) ≤ 10 ^ k * units := by exact_mod_cast hbelow
    have habove : (10 : ℚ) ^ (k - 1) * units < d := by exact_mod_cast habove
    rw [show -(k : ℤ) + 1 = -((k - 1 : ℕ) : ℤ) by omega, zpow_neg, zpow_neg, zpow_natCast, zpow_natCast,
      inv_le_iff_one_le_mul₀ (by positivity), lt_inv_comm₀ (div_pos (by exact_mod_cast hu) hone) (by positivity), inv_div,
      lt_div_iff₀ (by exact_mod_cast hu)]
    refine ⟨?_, habove⟩
    rw [div_mul_eq_mul_div, le_div_iff₀ hone, one_mul, mul_comm]
    exact hbelow

/-- The multiple of a power of ten that units are rounded to. -/
theorem roundsEven_scaled (units places : ℕ) :
    RoundsEven (units * unit * 10 ^ places) (roundQuotient (units * 10 ^ places) one) ∧
      RoundsEven (units * unit / 10 ^ places) (roundQuotient units (one * 10 ^ places)) := by
  have hup := roundsEven_roundQuotient (units * 10 ^ places) Binary.one_pos
  have hdown := roundsEven_roundQuotient units (Nat.mul_pos Binary.one_pos (Nat.pow_pos (n := places) (by decide : 0 < 10)))
  rw [Nat.cast_mul, Nat.cast_pow, Nat.cast_ofNat] at hup hdown
  rw [natCast_mul_unit]
  exact ⟨by rwa [div_mul_eq_mul_div], by rwa [div_div]⟩

/-- `v` is rounded to `places + 1` leading digits, which are `digits` with the first one at the place of `exponent`.
    Rounding may carry into a place that `v` does not have. -/
def Leads (v : ℚ) (places digits : ℕ) (exponent : ℤ) : Prop :=
  ∃ (e : ℤ) (c : ℕ), 10 ^ e ≤ v ∧ v < 10 ^ (e + 1) ∧ RoundsEven (v / 10 ^ (e - places)) c ∧
    (c ≠ 10 ^ (places + 1) ∧ digits = c ∧ exponent = e ∨
      c = 10 ^ (places + 1) ∧ digits = 10 ^ places ∧ exponent = e + 1)

section Leads
variable {v q : ℚ} {places digits digits' : ℕ} {exponent e : ℤ} {c : ℕ}

/-- Rounding to a place keeps a number between the powers of ten that it is between. -/
theorem bounds_of_roundsEven (hle : 10 ^ e ≤ v) (hlt : v < 10 ^ (e + 1)) (h : RoundsEven (v / 10 ^ (e - places)) c) :
    10 ^ places ≤ c ∧ c ≤ 10 ^ (places + 1) := by
  have hgrid : (0 : ℚ) < 10 ^ (e - places) := by positivity
  have hpower (k : ℕ) : (10 : ℚ) ^ k * 10 ^ (e - places) = 10 ^ (e + k - places) := by
    rw [← zpow_natCast, ← zpow_add₀ (by norm_num)]
    congr 1
    ring
  have hlow : (10 : ℚ) ^ places ≤ v / 10 ^ (e - places) := by
    rwa [le_div_iff₀ hgrid, hpower, add_sub_cancel_right]
  have hhigh : v / 10 ^ (e - places) < (10 : ℚ) ^ (places + 1) := by
    rwa [div_lt_iff₀ hgrid, hpower, show e + (places + 1 : ℕ) - places = e + 1 by push_cast; ring]
  have herror := abs_le.mp h.le_half
  have hge : ((10 ^ places : ℕ) : ℚ) < c + 1 := by
    push_cast
    linarith
  have hle : (c : ℚ) < (10 ^ (places + 1) : ℕ) + 1 := by
    push_cast
    linarith
  exact ⟨Nat.lt_succ_iff.mp (by exact_mod_cast hge), Nat.lt_succ_iff.mp (by exact_mod_cast hle)⟩

theorem Leads.bounds (h : Leads v places digits exponent) : 10 ^ places ≤ digits ∧ digits < 10 ^ (places + 1) := by
  obtain ⟨e, c, hle, hlt, hrounds, ⟨hc, rfl, -⟩ | ⟨-, rfl, -⟩⟩ := h
  · obtain ⟨hlow, hhigh⟩ := bounds_of_roundsEven hle hlt hrounds
    exact ⟨hlow, lt_of_le_of_ne hhigh hc⟩
  · exact ⟨le_rfl, Nat.pow_lt_pow_right (by decide) places.lt_succ_self⟩

/-- What is not farther from the leading digits than `v` is rounded to them at the last place of `v`. -/
theorem Leads.roundsEven_of_nearer (hv : Leads v places digits exponent)
    (h : |q - digits * 10 ^ (exponent - places)| ≤ |v - digits * 10 ^ (exponent - places)|) :
    ∃ (e : ℤ) (c : ℕ), 10 ^ places ≤ c ∧ RoundsEven (q / 10 ^ (e - places)) c ∧
      (digits = c ∧ exponent = e ∨ c = 10 ^ (places + 1) ∧ digits = 10 ^ places ∧ exponent = e + 1) := by
  obtain ⟨e, c, hle, hlt, hrounds, hcarry⟩ := hv
  refine ⟨e, c, (bounds_of_roundsEven hle hlt hrounds).1, ?_, hcarry.imp_left And.right⟩
  have hgrid : (0 : ℚ) < 10 ^ (e - places) := by positivity
  have hshown : (digits : ℚ) * 10 ^ (exponent - places) = c * 10 ^ (e - places) := by
    rcases hcarry with ⟨-, rfl, rfl⟩ | ⟨rfl, rfl, rfl⟩
    · rfl
    · rw [add_sub_right_comm, zpow_add_one₀ (by norm_num)]
      push_cast
      ring
  have hscale (u : ℚ) : |u / 10 ^ (e - places) - c| = |u - digits * 10 ^ (exponent - places)| / 10 ^ (e - places) := by
    rw [hshown, ← abs_of_pos hgrid, ← abs_div, abs_of_pos hgrid, sub_div, mul_div_cancel_right₀ _ hgrid.ne']
  refine hrounds.of_nearer ?_
  rw [hscale, hscale]
  exact div_le_div_of_nonneg_right h hgrid.le

theorem Leads.ne_zero_of_nearer (hv : Leads v places digits exponent)
    (h : |q - digits * 10 ^ (exponent - places)| ≤ |v - digits * 10 ^ (exponent - places)|) : q ≠ 0 := by
  rintro rfl
  obtain ⟨e, c, hc, hrounds, -⟩ := hv.roundsEven_of_nearer h
  rw [zero_div] at hrounds
  obtain rfl : c = 0 := hrounds.unique (by exact_mod_cast roundsEven_natCast 0)
  exact absurd hc (Nat.not_le.mpr (by positivity))

/-- What is not farther from the leading digits than `v` has the same ones, if its first digit is at the same place. -/
theorem Leads.eq_of_nearer (hv : Leads v places digits exponent) (hq : Leads q places digits' exponent)
    (h : |q - digits * 10 ^ (exponent - places)| ≤ |v - digits * 10 ^ (exponent - places)|) : digits' = digits := by
  obtain ⟨e, c, hc, hrounds, hcarry⟩ := hv.roundsEven_of_nearer h
  obtain ⟨e', c', hle, hlt, hrounds', hcarry'⟩ := hq
  rcases hcarry with ⟨rfl, rfl⟩ | ⟨rfl, rfl, rfl⟩ <;> rcases hcarry' with ⟨-, rfl, rfl⟩ | ⟨-, rfl, hexp⟩
  · exact hrounds'.unique hrounds
  · -- `q` is below the power of ten that it is rounded up to, so the digits are the least ones.
    have hgrid : (0 : ℚ) < 10 ^ (exponent - places) := by positivity
    have hbelow : q / 10 ^ (exponent - places) < (10 ^ places : ℕ) := by
      rw [div_lt_iff₀ hgrid, Nat.cast_pow, Nat.cast_ofNat, ← zpow_natCast, ← zpow_add₀ (by norm_num),
        add_sub_cancel, hexp]
      exact hlt
    have hle := (abs_le.mp hrounds.le_half).1
    have hlt : (digits : ℚ) < (10 ^ places : ℕ) + 1 := by linarith
    exact le_antisymm hc (Nat.lt_succ_iff.mp (by exact_mod_cast hlt))
  · -- A distance of half a unit at the place of `v` is a twentieth at the place of `q`.
    have hscale : q / 10 ^ (e + 1 - places) = q / 10 ^ (e - places) / 10 := by
      rw [add_sub_right_comm, zpow_add_one₀ (by norm_num), div_div]
    have hle := abs_le.mp hrounds.le_half
    refine hrounds'.unique (.inl ?_)
    rw [hscale, abs_lt]
    push_cast at hle ⊢
    rw [pow_succ] at hle
    constructor <;> linarith
  · rfl

end Leads

theorem leads_leadingDigits {units : ℕ} (h : units ≠ 0) (places : ℕ) :
    Leads (units * unit) places (leadingDigits places units).1 (leadingDigits places units).2 := by
  obtain ⟨hle, hlt⟩ := order_spec h
  obtain ⟨hup, -⟩ := roundsEven_scaled units (places - order units).toNat
  obtain ⟨-, hdown⟩ := roundsEven_scaled units (-(places - order units)).toNat
  unfold leadingDigits
  dsimp only
  rw [if_neg h]
  generalize order units = e at *
  generalize roundQuotient (units * 10 ^ (places - e).toNat) one = up at *
  generalize roundQuotient units (one * 10 ^ (-(places - e)).toNat) = down at *
  obtain ⟨c, hc, hrounds⟩ : ∃ c, (if 0 ≤ (places : ℤ) - e then up else down) = c ∧
      RoundsEven (units * unit / 10 ^ (e - places)) c := by
    refine ⟨_, rfl, ?_⟩
    split
    · rename_i hshift
      rwa [← zpow_natCast (10 : ℚ), Int.toNat_of_nonneg hshift, ← neg_sub, zpow_neg, ← div_eq_mul_inv] at hup
    · rename_i hshift
      rwa [← zpow_natCast (10 : ℚ), Int.toNat_of_nonneg (by omega), neg_sub] at hdown
  rw [hc]
  refine ⟨e, c, hle, hlt, hrounds, ?_⟩
  split
  · rename_i hcarry
    exact .inr ⟨hcarry, rfl, rfl⟩
  · rename_i hcarry
    exact .inl ⟨hcarry, rfl, rfl⟩

end Decimal
end Worksheet
