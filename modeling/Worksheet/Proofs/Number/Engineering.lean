import Worksheet.Proofs.Number.Bases
import Worksheet.Proofs.Number.Hundredths

/-! Engineering notation. The exponent is found with the logarithm and the power of the mathematical library, whose results
    are rounded. As long as they are close to the exact ones, what is left without the exponent is a finite double, so
    digits are shown. -/

namespace Worksheet
open Binary

namespace Binary
open Float.Model (UnpackedFloat)

variable {x : Float}

theorem unpack_of_value_eq_zero (hx : x.isFinite = true) (h : value x = 0) : ∃ s, x.toModel.unpack = .zero s := by
  rcases unpack_of_isFinite hx with hzero | ⟨s, m, e, hm, hs⟩
  · exact hzero
  · have hvalue : value x = unpackedValue (.finite s m e hm) := congrArg unpackedValue hs
    have hpos : (0 : ℚ) < m * 2 ^ e := by positivity
    rw [hvalue] at h
    cases s with
    | positive => exact absurd h hpos.ne'
    | negative =>
      rw [unpackedValue_negative, neg_eq_zero] at h
      exact absurd h hpos.ne'

/-- A double that is not zero over a number is a number. -/
theorem isNaN_div {y : Float} (hx : x.isFinite = true) (hne : value x ≠ 0) (hy : y.isNaN = false) :
    (x / y).isNaN = false := by
  by_cases hfinite : y.isFinite = true
  · by_cases hzero : value y = 0
    · obtain ⟨t, ht⟩ := unpack_of_value_eq_zero hfinite hzero
      rcases unpack_of_isFinite hx with ⟨s, hs⟩ | ⟨s, m, e, hm, hs⟩
      · exact absurd (congrArg unpackedValue hs) hne
      · show (x / y).toModel.unpack.isNaN = false
        rw [unpack_div, hs, ht]
        simp [UnpackedFloat.div, UnpackedFloat.isNaN]
    · exact (rounds_div hx hfinite hzero).isNaN
  · exact isNaN_of_isFinite (div_of_not_isFinite hx hfinite hy).1

end Binary

/-! ### The mathematical library -/

/-- The library's functions are close to those that they are named for: a logarithm is off by `2 ^ -40` at most, and a
    power of ten by a share of `2 ^ -40` and one unit, unless it is beyond all doubles. -/
structure Libm.Accurate (libm : Libm) : Prop where
  isFinite_log10 : ∀ {x : Float}, x.isFinite = true → 0 < Binary.value x → (libm.log10 x).isFinite = true
  log10 : ∀ {x : Float}, x.isFinite = true → 0 < Binary.value x →
    |(Binary.value (libm.log10 x) : ℝ) - Real.logb 10 (Binary.value x)| ≤ 1 / 2 ^ 40
  isNaN_pow : ∀ {e : ℤ}, |e| ≤ 400 → (libm.pow 10.0 (ofInt e)).isNaN = false
  pow : ∀ {e : ℤ}, |e| ≤ 400 → (libm.pow 10.0 (ofInt e)).isFinite = true →
    |Binary.value (libm.pow 10.0 (ofInt e)) - 10 ^ e| ≤ 10 ^ e / 2 ^ 40 + unit

namespace Written
variable {libm : Libm} {x : Float}

/-! ### Exponents -/

/-- The logarithms of the least and the greatest double. -/
theorem logb_bounds (hx : x.isFinite = true) (hne : Binary.value x ≠ 0) :
    -(647 / 2) ≤ Real.logb 10 (|Binary.value x| : ℚ) ∧ Real.logb 10 (|Binary.value x| : ℚ) < 310 := by
  have hpos : (0 : ℝ) < (|Binary.value x| : ℚ) := by exact_mod_cast abs_pos.mpr hne
  constructor
  · -- The square of a unit is more than `10 ^ -647`.
    have hunit : ((10 : ℚ) ^ 647)⁻¹ ≤ |Binary.value x| ^ 2 := by
      have hpowers : 2 ^ 2148 ≤ 10 ^ 647 := by decide +kernel
      calc ((10 : ℚ) ^ 647)⁻¹ ≤ (2 ^ 2148)⁻¹ := by
            rw [inv_le_inv₀ (by positivity) (by positivity)]
            exact_mod_cast hpowers
        _ = unit ^ 2 := by
            rw [unit, zpow_neg, inv_pow, show (1074 : ℤ) = (1074 : ℕ) from rfl, zpow_natCast, ← pow_mul]
        _ ≤ |Binary.value x| ^ 2 := pow_le_pow_left₀ unit_pos.le (unit_le_abs hx hne) 2
    have hreal : ((10 : ℝ) ^ 647)⁻¹ ≤ ((|Binary.value x| : ℚ) : ℝ) ^ 2 := by
      have hcast := (Rat.cast_le (K := ℝ)).mpr hunit
      rwa [Rat.cast_inv, Rat.cast_pow, Rat.cast_pow, Rat.cast_ofNat] at hcast
    have hlog := Real.logb_le_logb_of_le (b := 10) (by norm_num) (by positivity) hreal
    rw [Real.logb_inv, Real.logb_pow, Real.logb_pow, Real.logb_self_eq_one (by norm_num)] at hlog
    push_cast at hlog ⊢
    linarith
  · have hlt : |Binary.value x| < 10 ^ 310 := by
      have hlt := (abs_value_lt_overflow hx).trans_le Decimal.overflow_le
      exact_mod_cast hlt
    have hreal : ((|Binary.value x| : ℚ) : ℝ) < 10 ^ 310 := by exact_mod_cast hlt
    have hlog := Real.logb_lt_logb (b := 10) (by norm_num) hpos hreal
    rw [Real.logb_pow, Real.logb_self_eq_one (by norm_num)] at hlog
    push_cast at hlog ⊢
    linarith

theorem value_neg_108 : Binary.value (-108.0) = -108 := by
  rw [value_neg]
  show -(((108 * 2 ^ 46 : ℕ) : ℚ) * 2 ^ (-46 : ℤ)) = -108
  norm_num

/-- The decimal order of a double is found, or one less or one more where the logarithm is rounded. -/
theorem floor_log10 (hlibm : libm.Accurate) (hx : x.isFinite = true) (hne : Binary.value x ≠ 0) :
    ∃ k : ℤ, (floor (libm.log10 x.abs)).isFinite = true ∧ Binary.value (floor (libm.log10 x.abs)) = k ∧ -324 ≤ k ∧
      k ≤ 310 ∧ |Binary.value x| < 10 ^ (k + 2) := by
  have hpos : 0 < |Binary.value x| := abs_pos.mpr hne
  have habs : 0 < Binary.value x.abs := by rwa [value_abs]
  have hfinite := hlibm.isFinite_log10 ((isFinite_abs x).trans hx) habs
  have hnear := abs_le.mp (hlibm.log10 ((isFinite_abs x).trans hx) habs)
  obtain ⟨hlow, hhigh⟩ := logb_bounds hx hne
  rw [value_abs] at hnear
  generalize libm.log10 x.abs = l at hfinite hnear ⊢
  have hlower : (-324 : ℝ) ≤ (Binary.value l : ℝ) := by linarith [hnear.1]
  have hupper : (Binary.value l : ℝ) < 311 := by linarith [hnear.2]
  have hlower : -324 ≤ Binary.value l := by exact_mod_cast hlower
  have hupper : Binary.value l < 311 := by exact_mod_cast hupper
  obtain ⟨hfloor, hvalue⟩ := value_floor hfinite (by rw [abs_lt]; constructor <;> linarith)
  refine ⟨⌊Binary.value l⌋, hfloor, hvalue, Int.le_floor.mpr (by exact_mod_cast hlower), ?_, ?_⟩
  · exact Int.lt_add_one_iff.mp (Int.floor_lt.mpr (by exact_mod_cast hupper))
  · have hlt : (Binary.value l : ℝ) < ⌊Binary.value l⌋ + 1 := by exact_mod_cast Int.lt_floor_add_one (Binary.value l)
    have hlog : Real.logb 10 (|Binary.value x| : ℚ) < (⌊Binary.value l⌋ + 2 : ℤ) := by
      rw [Int.cast_add, Int.cast_ofNat]
      linarith [hnear.1]
    rw [Real.logb_lt_iff_lt_rpow (by norm_num) (by exact_mod_cast hpos), Real.rpow_intCast] at hlog
    refine (Rat.cast_lt (K := ℝ)).mp ?_
    rwa [Rat.cast_zpow, Rat.cast_ofNat]

/-- Without its exponent a double has at most two digits more than the three that are meant. -/
theorem engineeringExponent_spec (hlibm : libm.Accurate) (hx : x.isFinite = true) (hne : Binary.value x ≠ 0) :
    -324 ≤ engineeringExponent x libm ∧ engineeringExponent x libm ≤ 312 ∧
      |Binary.value x| < 10 ^ (engineeringExponent x libm + 5) := by
  obtain ⟨k, hfinite, hvalue, hlow, hhigh, hlt⟩ := floor_log10 hlibm hx hne
  unfold engineeringExponent
  generalize floor (libm.log10 x.abs) = l at hfinite hvalue ⊢
  have hrounds := rounds_div hfinite (y := 3.0) rfl (by rw [value_three]; norm_num)
  rw [hvalue, value_three] at hrounds
  have hlowQ : (-324 : ℚ) ≤ k := by exact_mod_cast hlow
  have hhighQ : (k : ℚ) ≤ 310 := by exact_mod_cast hhigh
  have hq : |(k : ℚ) / 3| ≤ 108 := by
    rw [abs_le]
    constructor <;> linarith
  have hthird : (l / 3.0).isFinite = true := hrounds.isFinite_iff.mpr (by linarith [two_pow_lt_overflow])
  have herror := abs_le.mp (hrounds.error_le hthird)
  have hleast : -108 ≤ Binary.value (l / 3.0) := by
    have hle := hrounds.le_of_le hthird (-108.0) rfl (by rw [value_neg_108]; linarith)
    rwa [value_neg_108] at hle
  generalize l / 3.0 = q at hthird herror hleast ⊢
  obtain ⟨hfloor, hdown⟩ := value_floor hthird (by rw [abs_lt]; constructor <;> linarith)
  have hmin : -108 ≤ ⌊Binary.value q⌋ := Int.le_floor.mpr (by exact_mod_cast hleast)
  have hle := Int.floor_le (Binary.value q)
  have hge := Int.lt_floor_add_one (Binary.value q)
  have hmax : ⌊Binary.value q⌋ ≤ 104 := by
    have hlt : (⌊Binary.value q⌋ : ℚ) < 105 := by linarith
    exact Int.lt_add_one_iff.mp (by exact_mod_cast hlt)
  rw [toInt32_eq hfloor hdown (by omega) (by omega)]
  refine ⟨by omega, by omega, hlt.trans_le (zpow_le_zpow_right₀ (by norm_num) ?_)⟩
  have hnext : (k : ℚ) < ⌊Binary.value q⌋ * 3 + 4 := by linarith
  have hnext : k < ⌊Binary.value q⌋ * 3 + 4 := by exact_mod_cast hnext
  omega

/-! ### Finite numerals -/

/-- A power of ten from `10 ^ -321` on is not less than half of it. -/
theorem pow_lower (hlibm : libm.Accurate) {e : ℤ} (hlow : -321 ≤ e) (hhigh : e ≤ 400)
    (hfinite : (libm.pow 10.0 (ofInt e)).isFinite = true) :
    10 ^ e / 2 ≤ Binary.value (libm.pow 10.0 (ofInt e)) := by
  have hnear := abs_le.mp (hlibm.pow (abs_le.mpr ⟨by omega, hhigh⟩) hfinite)
  have hunit : unit ≤ 10 ^ e / 100 := by
    have hpowers : 10 ^ 323 ≤ 2 ^ 1074 := by decide +kernel
    calc unit ≤ 10 ^ (-323 : ℤ) := by
          rw [unit, zpow_neg, zpow_neg, inv_le_inv₀ (by positivity) (by positivity)]
          exact_mod_cast hpowers
      _ ≤ 10 ^ (e - 2) := zpow_le_zpow_right₀ (by norm_num) (by omega)
      _ = 10 ^ e / 100 := by rw [zpow_sub₀ (by norm_num)]; norm_num
  have hpos : (0 : ℚ) < 10 ^ e := by positivity
  have hshare : (10 : ℚ) ^ e / 2 ^ 40 ≤ 10 ^ e / 100 := by
    gcongr
    norm_num
  linarith [hnear.1]

/-- What is left without the exponent is finite, if it has not more than five digits. -/
theorem isFinite_div_pow (hlibm : libm.Accurate) (hx : x.isFinite = true) {e : ℤ} (hlow : -321 ≤ e) (hhigh : e ≤ 400)
    (hlt : |Binary.value x| < 10 ^ (e + 5)) : (x / libm.pow 10.0 (ofInt e)).isFinite = true := by
  by_cases hfinite : (libm.pow 10.0 (ofInt e)).isFinite = true
  · have hhalf := pow_lower hlibm hlow hhigh hfinite
    have hpos : (0 : ℚ) < 10 ^ e := by positivity
    have hpow : 0 < Binary.value (libm.pow 10.0 (ofInt e)) := by linarith
    rw [(rounds_div hx hfinite hpow.ne').isFinite_iff, abs_div, abs_of_pos hpow, div_lt_iff₀ hpow]
    rw [zpow_add₀ (by norm_num)] at hlt
    calc |Binary.value x| < 10 ^ e * 10 ^ (5 : ℤ) := hlt
      _ = 2 * 10 ^ 5 * (10 ^ e / 2) := by
        rw [show (5 : ℤ) = (5 : ℕ) from rfl, zpow_natCast]
        ring
      _ ≤ overflow * Binary.value (libm.pow 10.0 (ofInt e)) :=
        mul_le_mul (by linarith [two_pow_lt_overflow]) hhalf (by positivity) (by linarith [two_pow_lt_overflow])
  · exact (div_of_not_isFinite hx hfinite (hlibm.isNaN_pow (abs_le.mpr ⟨by omega, hhigh⟩))).1

/-- A numeral that is finite, or that is too large and makes the exponent take one more step. -/
theorem engineeringWith_cases (hlibm : libm.Accurate) (hx : x.isFinite = true) (hne : Binary.value x ≠ 0) (places : ℤ)
    {e : ℤ} (he : |e| ≤ 400) : (engineeringWith x places e libm).isFinite = true ∨
      (engineeringWith x places e libm).magnitude ≥ 1000.0 := by
  by_cases hfinite : (x / libm.pow 10.0 (ofInt e)).isFinite = true
  · exact .inl ((Numeral.steady_fixed places).isFinite hfinite)
  · have hwhole : (engineeringWith x places e libm).whole = "inf".toList := by
      unfold engineeringWith Numeral.fixed
      rw [if_neg hfinite, isNaN_div hx hne (hlibm.isNaN_pow he)]
      rfl
    refine .inr ?_
    unfold Numeral.magnitude
    rw [if_pos hwhole]
    decide +kernel

/-- In engineering notation digits are shown. -/
theorem isFinite_engineering (hlibm : libm.Accurate) (hx : x.isFinite = true) (places : ℤ) :
    (engineering x places libm).isFinite = true := by
  unfold engineering
  split
  · exact (Numeral.steady_fixed places).isFinite (x := 0.0) rfl
  · rename_i hzero
    have hne : Binary.value x ≠ 0 := fun h => hzero ((beq_iff_value hx rfl).mpr h)
    obtain ⟨hlow, hhigh, hlt⟩ := engineeringExponent_spec hlibm hx hne
    dsimp only
    split
    · have hlt := hlt.trans_le (zpow_le_zpow_right₀ (by norm_num) (by omega : _ ≤ engineeringExponent x libm + 3 + 5))
      exact (Numeral.steady_fixed places).isFinite (isFinite_div_pow hlibm hx (by omega) (by omega) hlt)
    · rename_i hsmall
      exact (engineeringWith_cases hlibm hx hne places (abs_le.mpr ⟨by omega, by omega⟩)).resolve_right hsmall

end Written

/-! ### A library that is rounded once -/

namespace Binary

/-- The half units in 1. -/
def halves : ℕ := 2 * one

theorem halves_pos : 0 < halves := Nat.mul_pos two_pos Binary.one_pos

theorem half_unit : unit / 2 = 1 / halves := by
  have hone : (one : ℚ) ≠ 0 := by exact_mod_cast Binary.one_pos.ne'
  rw [halves, Nat.cast_mul, Nat.cast_ofNat, div_eq_div_iff two_ne_zero (mul_ne_zero two_ne_zero hone)]
  linarith [one_mul_unit]

/-- The size of a real number in half units, rounded down, and that in turn rounded to a double. -/
noncomputable def ofReal (r : ℝ) : Float :=
  if r < 0 then -ofRatio false ⌊|r| * halves⌋₊ halves else ofRatio false ⌊|r| * halves⌋₊ halves

variable {r : ℝ}

theorem floor_bounds (r : ℝ) : ((⌊|r| * halves⌋₊ / halves : ℚ) : ℝ) ≤ |r| ∧
    |r| - (unit / 2 : ℚ) < ((⌊|r| * halves⌋₊ / halves : ℚ) : ℝ) := by
  have hden : (0 : ℝ) < halves := by exact_mod_cast halves_pos
  have hle := Nat.floor_le (mul_nonneg (abs_nonneg r) hden.le)
  have hlt := Nat.lt_floor_add_one (|r| * halves)
  rw [half_unit]
  push_cast
  rw [div_le_iff₀ hden, lt_div_iff₀ hden, sub_mul, one_div_mul_cancel hden.ne']
  exact ⟨hle, by linarith⟩

theorem isFinite_ofReal (h : |r| < 2 ^ 60) : (ofReal r).isFinite = true := by
  have hlt : (⌊|r| * halves⌋₊ / halves : ℚ) < 2 ^ 60 := by exact_mod_cast (floor_bounds r).1.trans_lt h
  have hfinite : (ofRatio false ⌊|r| * halves⌋₊ halves).isFinite = true :=
    (withSign_spec false (nearestBits_lt halves_pos (by linarith [two_pow_lt_overflow]))).1
  unfold ofReal
  split
  · rwa [isFinite_neg]
  · exact hfinite

theorem ofReal_error (h : (ofReal r).isFinite = true) : |(value (ofReal r) : ℝ) - r| ≤ |r| / 2 ^ 53 + (unit : ℚ) := by
  obtain ⟨hle, hlt⟩ := floor_bounds r
  have herror (hfinite : (ofRatio false ⌊|r| * halves⌋₊ halves).isFinite = true) :
      |(value (ofRatio false ⌊|r| * halves⌋₊ halves) : ℝ) - (|r|)| ≤ |r| / 2 ^ 53 + (unit : ℚ) := by
    have hnear := (Rat.cast_le (K := ℝ)).mpr (ofRatio_error halves_pos hfinite)
    generalize (⌊|r| * halves⌋₊ / halves : ℚ) = q at hle hlt hnear
    push_cast at hlt hnear
    rw [abs_le] at hnear ⊢
    constructor <;> linarith [hnear.1, hnear.2]
  unfold ofReal at h ⊢
  split
  · rename_i hneg
    rw [if_pos hneg, isFinite_neg] at h
    have hnear := herror h
    rw [abs_of_neg hneg] at hnear ⊢
    rw [value_neg, Rat.cast_neg, ← abs_neg]
    convert hnear using 2
    ring
  · rename_i hneg
    rw [if_neg hneg] at h
    have hnear := herror h
    rwa [abs_of_nonneg (not_lt.mp hneg)] at hnear ⊢

theorem isNaN_ofReal (r : ℝ) : (ofReal r).isNaN = false := by
  unfold ofReal
  split
  · rw [isNaN_neg]
    exact isNaN_ofRatio false _ _
  · exact isNaN_ofRatio false _ _

theorem value_ten : value 10.0 = 10 := by
  show ((10 * 2 ^ 49 : ℕ) : ℚ) * 2 ^ (-49 : ℤ) = 10
  norm_num

end Binary

/-- The logarithm and the power, rounded. -/
noncomputable def Libm.exact : Libm where
  log10 x := ofReal (Real.logb 10 (Binary.value x))
  pow x y := ofReal ((Binary.value x : ℝ) ^ (Binary.value y : ℝ))

theorem Libm.accurate_exact : Libm.exact.Accurate where
  isFinite_log10 hx hpos := by
    obtain ⟨hlow, hhigh⟩ := Written.logb_bounds hx hpos.ne'
    rw [abs_of_pos hpos] at hlow hhigh
    exact isFinite_ofReal (by rw [abs_lt]; constructor <;> linarith)
  log10 hx hpos := by
    obtain ⟨hlow, hhigh⟩ := Written.logb_bounds hx hpos.ne'
    rw [abs_of_pos hpos] at hlow hhigh
    have hle : |Real.logb 10 (Binary.value _)| ≤ 324 := abs_le.mpr ⟨by linarith, by linarith⟩
    have hunit : ((unit : ℚ) : ℝ) ≤ 2 * (1 / 10 ^ 30) := by
      have hhalf := (Rat.cast_le (K := ℝ)).mpr Written.half_unit_le
      push_cast at hhalf
      linarith
    calc _ ≤ |Real.logb 10 (Binary.value _)| / 2 ^ 53 + (unit : ℚ) := ofReal_error (isFinite_ofReal (by linarith))
      _ ≤ 324 / 2 ^ 53 + 2 * (1 / 10 ^ 30) := by gcongr
      _ ≤ 1 / 2 ^ 40 := by norm_num
  isNaN_pow _ := isNaN_ofReal _
  pow {e} he hfinite := by
    have hpow : (Binary.value 10.0 : ℝ) ^ (Binary.value (ofInt e) : ℝ) = (10 : ℝ) ^ e := by
      rw [value_ofInt (he.trans_lt (by norm_num)), value_ten]
      push_cast
      exact Real.rpow_intCast 10 e
    have hnear : |(Binary.value (Libm.exact.pow 10.0 (ofInt e)) : ℝ) - _| ≤ _ := ofReal_error hfinite
    rw [hpow, abs_of_pos (by positivity : (0 : ℝ) < 10 ^ e)] at hnear
    have hshare : (10 : ℝ) ^ e / 2 ^ 53 ≤ 10 ^ e / 2 ^ 40 := by
      gcongr
      · norm_num
      · norm_num
    refine (Rat.cast_le (K := ℝ)).mp ?_
    push_cast
    linarith

end Worksheet
