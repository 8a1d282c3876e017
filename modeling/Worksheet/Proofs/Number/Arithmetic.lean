import Worksheet.Proofs.Number.Rounding

/-! Sums, differences, products and quotients of finite doubles are the exact ones rounded to the nearest double, or to
    infinity where they are beyond all doubles. A rounded number has the sign of the exact one, stays on the same side
    of every double, and is close to it. -/

namespace Worksheet.Binary
open Float.Model (UnpackedFloat Format)
open Float.Model.UnpackedFloat

/-! ### Rounded results -/

/-- `x` is what `q` is rounded to: no finite double is on the other side of it, and the error is half a unit in the
    last place at most. Magnitudes beyond all doubles are rounded to infinity, with the sign of `q`. -/
structure Rounds (q : ℚ) (x : Float) : Prop where
  isFinite_iff : x.isFinite = true ↔ |q| < overflow
  le_of_le : x.isFinite = true → ∀ y : Float, y.isFinite = true → value y ≤ q → value y ≤ value x
  ge_of_ge : x.isFinite = true → ∀ y : Float, y.isFinite = true → q ≤ value y → value x ≤ value y
  error : x.isFinite = true → |value x - q| ≤ |q| / 2 ^ 53 + 1 / 2 ^ 1075
  isNaN : x.isNaN = false
  positive : 0 < x → 0 < q
  negative : x < 0 → q < 0

/-- A number with too great an exponent is packed as infinity. -/
theorem pack_of_lt {s : Sign} {m : ℕ} {e : ℤ} {hm : 0 < m} (h : 971 < e) :
    pack Format.binary64 (.finite s m e hm) = pack Format.binary64 (.infinity s) := by
  have hbias : (e + (Format.binary64.exponentBias : ℤ) + (Format.binary64.mantissaBitsWithoutImplicit : ℤ)).toNat =
      (e + 1075).toNat := congrArg Int.toNat (add_assoc e 1023 52)
  unfold pack
  dsimp only
  rw [hbias, if_pos (show 2 ^ 11 ≤ (e + 1075).toNat + 1 by omega)]

namespace RoundsTo
variable {q : ℚ} {u : UnpackedFloat}

theorem value_eq (h : RoundsTo q u) (hbounded : IsBounded u) :
    value (Float.ofModel (Float.Model.pack u)) = unpackedValue u :=
  congrArg unpackedValue (unpack_pack h.canonical hbounded)

/-- A packed number is itself, or infinity of its sign. -/
theorem unpack_pack_cases (h : RoundsTo q u) :
    IsBounded u ∧ unpack Format.binary64 (pack Format.binary64 u) = u ∨
      ¬IsBounded u ∧ ∃ s m e hm, u = .finite s m e hm ∧ unpack Format.binary64 (pack Format.binary64 u) = .infinity s := by
  by_cases hbounded : IsBounded u
  · exact .inl ⟨hbounded, unpack_pack h.canonical hbounded⟩
  · match u, h.isFinite, hbounded with
    | .zero _, _, hbounded => exact absurd trivial hbounded
    | .finite s m e hm, _, hbounded =>
      refine .inr ⟨hbounded, s, m, e, hm, rfl, ?_⟩
      rw [pack_of_lt (not_le.mp hbounded), unpack_pack_infinity]

theorem isFinite_iff (h : RoundsTo q u) : (Float.ofModel (Float.Model.pack u)).isFinite = true ↔ IsBounded u := by
  show (unpack Format.binary64 (pack Format.binary64 u)).isFinite = true ↔ _
  rcases h.unpack_pack_cases with ⟨hbounded, hunpack⟩ | ⟨hbounded, s, m, e, hm, -, hunpack⟩
  · rw [hunpack]
    exact iff_of_true h.isFinite hbounded
  · rw [hunpack]
    exact iff_of_false Bool.false_ne_true hbounded

theorem positive (h : RoundsTo q u) (hpos : IsPositive (unpack Format.binary64 (pack Format.binary64 u))) : 0 < q := by
  by_contra hq
  have hle := h.ge_of_ge (.zero .positive) rfl trivial (not_lt.mp hq)
  have hu : ¬IsPositive u := by
    match u, h.isFinite, hle with
    | .zero .positive, _, _ | .zero .negative, _, _ => exact id
    | .finite .negative m e hm, _, _ => exact id
    | .finite .positive m e hm, _, hle =>
      have hvalue : (0 : ℚ) < m * 2 ^ e := by positivity
      exact absurd hle (not_le.mpr hvalue)
  rcases h.unpack_pack_cases with ⟨-, hunpack⟩ | ⟨-, s, m, e, hm, rfl, hunpack⟩
  · exact hu (hunpack ▸ hpos)
  · rw [hunpack] at hpos
    cases s with
    | positive => exact hu trivial
    | negative => exact hpos

theorem negative (h : RoundsTo q u)
    (hneg : (unpack Format.binary64 (pack Format.binary64 u)).lt (.zero .positive) = true) : q < 0 := by
  by_contra hq
  have hle := h.le_of_le (.zero .positive) rfl trivial (not_lt.mp hq)
  have hu : ¬u.lt (.zero .positive) = true := by
    match u, h.isFinite, hle with
    | .zero .positive, _, _ | .zero .negative, _, _ => exact Bool.false_ne_true
    | .finite .positive m e hm, _, _ => exact Bool.false_ne_true
    | .finite .negative m e hm, _, hle =>
      have hvalue : (0 : ℚ) < m * 2 ^ e := by positivity
      rw [unpackedValue_negative, unpackedValue_zero] at hle
      linarith
  rcases h.unpack_pack_cases with ⟨-, hunpack⟩ | ⟨-, s, m, e, hm, rfl, hunpack⟩ <;> rw [hunpack] at hneg
  · exact hu hneg
  · cases s with
    | positive => exact absurd hneg Bool.false_ne_true
    | negative => exact hu rfl

theorem isNaN (h : RoundsTo q u) : (unpack Format.binary64 (pack Format.binary64 u)).isNaN = false := by
  rcases h.unpack_pack_cases with ⟨-, hunpack⟩ | ⟨-, s, m, e, hm, -, hunpack⟩ <;> rw [hunpack]
  · have hfinite := h.isFinite
    cases u <;> first | rfl | cases hfinite
  · rfl

theorem rounds (h : RoundsTo q u) : Rounds q (Float.ofModel (Float.Model.pack u)) where
  isFinite_iff := h.isFinite_iff.trans h.bounded_iff
  le_of_le hfinite y hy hle := by
    rw [h.value_eq (h.isFinite_iff.mp hfinite)]
    exact h.le_of_le _ hy (isCanonical_unpack _).1 hle
  ge_of_ge hfinite y hy hge := by
    rw [h.value_eq (h.isFinite_iff.mp hfinite)]
    exact h.ge_of_ge _ hy (isCanonical_unpack _).1 hge
  error hfinite := by
    rw [h.value_eq (h.isFinite_iff.mp hfinite)]
    exact h.error
  isNaN := h.isNaN
  positive hpos := by
    rw [zero_lt_iff] at hpos
    exact h.positive hpos
  negative hneg := by
    rw [lt_iff] at hneg
    exact h.negative hneg

end RoundsTo

section
variable {x y : Float} (hx : x.isFinite = true) (hy : y.isFinite = true)
include hx

theorem roundsTo_unpack : RoundsTo (value x) x.toModel.unpack :=
  roundsTo_self hx (isCanonical_unpack _).1 (isCanonical_unpack _).2

/-- Finite doubles stay below the least magnitude that is rounded to infinity. -/
theorem abs_value_lt_overflow : |value x| < overflow :=
  (roundsTo_unpack hx).bounded_iff.mp (isCanonical_unpack _).2

include hy

theorem rounds_add : Rounds (value x + value y) (x + y) :=
  (roundsTo_add (roundsTo_unpack hx) (roundsTo_unpack hy)).rounds

theorem rounds_sub : Rounds (value x - value y) (x - y) :=
  (roundsTo_sub (roundsTo_unpack hx) (roundsTo_unpack hy)).rounds

theorem rounds_mul : Rounds (value x * value y) (x * y) :=
  (roundsTo_mul hx hy (isCanonical_unpack _).1 (isCanonical_unpack _).1).rounds

theorem rounds_div (hzero : value y ≠ 0) : Rounds (value x / value y) (x / y) :=
  (roundsTo_div hx hy hzero).rounds

end

/-- The double of a number is a number with the same digits. -/
theorem exists_double {x : UnpackedFloat} (hx : x.isFinite = true) (hcanonical : IsCanonical x) :
    ∃ y : UnpackedFloat, y.isFinite = true ∧ IsCanonical y ∧ unpackedValue y = 2 * unpackedValue x := by
  match x, hx, hcanonical with
  | .zero s, _, _ => exact ⟨.zero s, rfl, trivial, (mul_zero 2).symm⟩
  | .finite s m e hm, _, ⟨hlt, hmin, hfull⟩ =>
    have hsigned (q : ℚ) : signed s (2 * q) = 2 * signed s q := by
      cases s with
      | positive => rfl
      | negative => exact (mul_neg 2 q).symm
    by_cases hbits : 2 ^ 52 ≤ m
    · refine ⟨.finite s m (e + 1) hm, rfl, ⟨hlt, by omega, .inl hbits⟩, ?_⟩
      rw [unpackedValue_finite, unpackedValue_finite, ← hsigned, zpow_add_one₀ two_ne_zero]
      congr 1
      ring
    · obtain rfl := hfull.resolve_left hbits
      refine ⟨.finite s (2 * m) (-1074) (by omega), rfl, ⟨by omega, le_rfl, .inr rfl⟩, ?_⟩
      rw [unpackedValue_finite, unpackedValue_finite, ← hsigned]
      rw [Nat.cast_mul, Nat.cast_ofNat, mul_assoc]

theorem value_half : value 0.5 = 1 / 2 := by
  show ((2 ^ 52 : ℕ) : ℚ) * 2 ^ (-53 : ℤ) = 1 / 2
  norm_num

theorem value_two : value 2.0 = 2 := by
  show ((2 ^ 52 : ℕ) : ℚ) * 2 ^ (-51 : ℤ) = 2
  norm_num

theorem value_three : value 3.0 = 3 := by
  show ((3 * 2 ^ 51 : ℕ) : ℚ) * 2 ^ (-51 : ℤ) = 3
  norm_num

/-- Doubling is exact, unless the result is beyond all doubles. -/
theorem value_two_mul {x : Float} (hx : x.isFinite = true) (h : (2.0 * x).isFinite = true) :
    value (2.0 * x) = 2 * value x := by
  have hrounds := roundsTo_mul (x := (2.0 : Float).toModel.unpack) rfl hx (isCanonical_unpack _).1
    (isCanonical_unpack _).1
  have hbounded := hrounds.isFinite_iff.mp h
  obtain ⟨y, hy, hcanonical, hvalue⟩ := exists_double hx (isCanonical_unpack x.toModel.toBits.toBitVec).1
  have hexact : unpackedValue y = unpackedValue (2.0 : Float).toModel.unpack * unpackedValue x.toModel.unpack := by
    rw [hvalue]
    exact congrArg (· * value x) value_two.symm
  have hle := hrounds.le_of_le y hy hcanonical hexact.le
  have hge := hrounds.ge_of_ge y hy hcanonical hexact.ge
  have hdouble : value (2.0 * x) = unpackedValue y := (hrounds.value_eq hbounded).trans (le_antisymm hge hle)
  rw [hdouble, hvalue]
  rfl

theorem not_double_abs_lt_zero (x : Float) : ¬2.0 * x.abs < 0 := by
  by_cases hx : x.isFinite = true
  · intro hneg
    have hdouble := (rounds_mul (x := 2.0) rfl ((isFinite_abs x).trans hx)).negative hneg
    rw [value_abs, value_two] at hdouble
    linarith [abs_nonneg (value x)]
  · have htwo : (2.0 : Float).toModel.unpack = .finite .positive (2 ^ 52) (-51) (by decide) := rfl
    rw [lt_zero_iff, unpack_mul, unpack_abs, htwo]
    rcases unpack_of_not_isFinite hx with hx | ⟨s, hx⟩ <;> rw [hx]
    · exact Bool.false_ne_true
    · have hinfinity : UnpackedFloat.mul Format.binary64 (.finite .positive (2 ^ 52) (-51) (by decide))
          (UnpackedFloat.infinity s).abs = .infinity .positive := rfl
      rw [hinfinity, unpack_pack_infinity]
      exact Bool.false_ne_true

/-! ### Bounds on rounded numbers -/

@[simp] theorem value_zero : value 0 = 0 := rfl

/-- Half a unit is next to nothing. -/
theorem tiny_le : (1 : ℚ) / 2 ^ 1075 ≤ 1 / 10 ^ 30 := by
  gcongr
  calc (10 : ℚ) ^ 30 ≤ 2 ^ 100 := by norm_num
    _ ≤ 2 ^ 1075 := pow_le_pow_right₀ one_le_two (by norm_num)

namespace Rounds
variable {q : ℚ} {x y z : Float}

/-- Between two doubles rounding does not overflow, and stays between them. -/
theorem between (h : Rounds q x) (hy : y.isFinite = true) (hz : z.isFinite = true) (hle : value y ≤ q)
    (hge : q ≤ value z) : x.isFinite = true ∧ value y ≤ value x ∧ value x ≤ value z := by
  have hfinite : x.isFinite = true := by
    rw [h.isFinite_iff, abs_lt]
    exact ⟨(abs_lt.mp (abs_value_lt_overflow hy)).1.trans_le hle, hge.trans_lt (abs_lt.mp (abs_value_lt_overflow hz)).2⟩
  exact ⟨hfinite, h.le_of_le hfinite y hy hle, h.ge_of_ge hfinite z hz hge⟩

/-- What a number up to zero is rounded to, unless it is finite. -/
theorem unpack_of_nonpos (h : Rounds q x) (hx : ¬x.isFinite = true) (hq : q ≤ 0) :
    x.toModel.unpack = .infinity .negative := by
  rcases unpack_of_not_isFinite hx with hnan | ⟨s, hs⟩
  · have hisNaN : x.toModel.unpack.isNaN = false := h.isNaN
    cases hnan ▸ hisNaN
  · cases s with
    | positive =>
      have hpos : 0 < x := zero_lt_iff.mpr (hs ▸ trivial)
      exact absurd (h.positive hpos) (not_lt.mpr hq)
    | negative => exact hs

theorem nonneg (h : Rounds q x) (hx : x.isFinite = true) (hq : 0 ≤ q) : 0 ≤ value x :=
  h.le_of_le hx 0 rfl hq

theorem nonpos (h : Rounds q x) (hx : x.isFinite = true) (hq : q ≤ 0) : value x ≤ 0 :=
  h.ge_of_ge hx 0 rfl hq

/-- A rounded number has the sign of what it is rounded from. -/
theorem zero_le_mul (h : Rounds q x) (hx : x.isFinite = true) {r : ℚ} (hq : 0 ≤ q * r) : 0 ≤ value x * r := by
  rcases lt_trichotomy r 0 with hr | rfl | hr
  · exact mul_nonneg_of_nonpos_of_nonpos (h.nonpos hx (nonpos_of_mul_nonneg_left hq hr)) hr.le
  · exact (mul_zero (value x)).ge
  · exact mul_nonneg (h.nonneg hx (nonneg_of_mul_nonneg_left hq hr)) hr.le

/-- The size of a rounded number. -/
theorem abs_error (h : Rounds q x) (hx : x.isFinite = true) : |(|value x|) - (|q|)| ≤ |q| / 2 ^ 53 + 1 / 10 ^ 30 := by
  exact (abs_abs_sub_abs_le _ _).trans ((h.error hx).trans (add_le_add_right tiny_le _))

/-- A bound on the error that is easy to reckon with. -/
theorem error_le (h : Rounds q x) (hx : x.isFinite = true) : |value x - q| ≤ |q| / 10 ^ 15 + 1 / 10 ^ 30 := by
  have hshare : |q| / 2 ^ 53 ≤ |q| / 10 ^ 15 := by
    gcongr
    norm_num
  exact (h.error hx).trans (add_le_add hshare tiny_le)

theorem abs_le (h : Rounds q x) (hx : x.isFinite = true) : |value x| ≤ 1001 / 1000 * |q| + 1 / 10 ^ 30 := by
  have herror := h.error_le hx
  have htriangle := abs_sub_abs_le_abs_sub (value x) q
  linarith [abs_nonneg q]

theorem isFinite_of_nonneg (h : Rounds q x) (hq : 0 ≤ q) (hlt : q < overflow) : x.isFinite = true := by
  rwa [h.isFinite_iff, abs_of_nonneg hq]

theorem le_of_nonneg (h : Rounds q x) (hx : x.isFinite = true) (hq : 0 ≤ q) :
    value x ≤ 1001 / 1000 * q + 1 / 10 ^ 30 := by
  have hle := h.abs_le hx
  rw [abs_of_nonneg hq] at hle
  exact (le_abs_self _).trans hle

end Rounds

/-- A double that is not tiny is a multiple of a unit. -/
theorem exists_int_mul {x : Float} (hx : x.isFinite = true) (h : 1 / 8 ≤ |value x|) : ∃ k : ℤ, value x = k * 2 ^ (-55 : ℤ) := by
  have hcanonical := (roundsTo_unpack hx).canonical
  rcases unpack_of_isFinite hx with ⟨s, hs⟩ | ⟨s, m, e, hm, hs⟩
  · have hzero : value x = 0 := by
      rw [value, hs]
      rfl
    rw [hzero, abs_zero] at h
    norm_num at h
  · have hvalue : value x = s.apply m * 2 ^ e := by
      rw [value, hs]
      rfl
    have habs : |((s.apply m : ℤ) : ℚ)| = m := by cases s <;> simp [Float.Model.UnpackedFloat.Sign.apply]
    have hlt : m < 2 ^ 53 := (hs ▸ hcanonical).1
    have he : -55 ≤ e := by
      by_contra he
      have hpow : (2 : ℚ) ^ e ≤ 2 ^ (-56 : ℤ) := zpow_le_zpow_right₀ one_le_two (by omega)
      have hm' : (m : ℚ) < 2 ^ 53 := by exact_mod_cast hlt
      have hless : (m : ℚ) * 2 ^ e < 2 ^ 53 * 2 ^ (-56 : ℤ) := calc
        (m : ℚ) * 2 ^ e ≤ m * 2 ^ (-56 : ℤ) := by gcongr
        _ < 2 ^ 53 * 2 ^ (-56 : ℤ) := by gcongr
      rw [hvalue, abs_mul, habs, abs_of_pos (by positivity : (0 : ℚ) < 2 ^ e)] at h
      norm_num at hless
      linarith
    refine ⟨s.apply m * 2 ^ (e + 55).toNat, ?_⟩
    have hsplit : (2 : ℚ) ^ e = 2 ^ (e + 55).toNat * 2 ^ (-55 : ℤ) := by
      rw [← zpow_natCast, ← zpow_add₀ two_ne_zero, Int.toNat_of_nonneg (by omega)]
      congr 1
      omega
    rw [hvalue, hsplit]
    push_cast
    ring

/-! ### The sign of a quotient -/

theorem neg_neg_unpacked (x : UnpackedFloat) : x.neg.neg = x := by
  match x with
  | .notANumber | .infinity .positive | .infinity .negative | .zero .positive | .zero .negative
  | .finite .positive m e hm | .finite .negative m e hm => rfl

theorem roundWithAccuracy_neg (s t : Sign) (m : ℕ) (e : ℤ) (acc : Accuracy) :
    roundWithAccuracy Format.binary64 (-s / t) m e acc = (roundWithAccuracy Format.binary64 (s / t) m e acc).neg := by
  have hnegative := roundWithAccuracy_negative m e acc
  have hpositive : roundWithAccuracy Format.binary64 .positive m e acc =
      (roundWithAccuracy Format.binary64 .negative m e acc).neg := by rw [hnegative, neg_neg_unpacked]
  cases s <;> cases t
  · exact hnegative
  · exact hpositive
  · exact hpositive
  · exact hnegative

theorem unpacked_neg_div (x y : UnpackedFloat) : x.neg.div Format.binary64 y = (x.div Format.binary64 y).neg := by
  match x, y with
  | .finite s m e hm, .finite t n f hn =>
    exact roundWithAccuracy_neg s t _ _ _
  | .notANumber, _ => rfl
  | .infinity _, .notANumber | .zero _, .notANumber | .finite _ _ _ _, .notANumber => rfl
  | .infinity _, .infinity _ | .zero _, .zero _ => rfl
  | .infinity s, .finite t _ _ _ | .infinity s, .zero t | .zero s, .infinity t | .zero s, .finite t _ _ _
  | .finite s _ _ _, .infinity t | .finite s _ _ _, .zero t => cases s <;> cases t <;> rfl

/-- Packing loses nothing of a quotient but the size of one beyond all doubles. -/
theorem unpack_pack_div (x y : UnpackedFloat) :
    unpack Format.binary64 (pack Format.binary64 (x.div Format.binary64 y)) = x.div Format.binary64 y ∨
      ∃ s m e hm, x.div Format.binary64 y = .finite s m e hm ∧ 971 < e := by
  match x, y with
  | .finite s m e hm, .finite t n f hn =>
    have hne : unpackedValue (.finite t n f hn) ≠ 0 := by
      have hpos : (0 : ℚ) < n * 2 ^ f := by positivity
      cases t with
      | positive => exact hpos.ne'
      | negative =>
        rw [unpackedValue_negative]
        exact neg_ne_zero.mpr hpos.ne'
    have hrounds := roundsTo_div (x := .finite s m e hm) rfl rfl hne
    rcases hrounds.unpack_pack_cases with ⟨-, hunpack⟩ | ⟨hbounded, s', m', e', hm', heq, -⟩
    · exact .inl hunpack
    · rw [heq] at hbounded
      exact .inr ⟨s', m', e', hm', heq, not_le.mp hbounded⟩
  | .notANumber, _ | .infinity _, .notANumber | .zero _, .notANumber | .finite _ _ _ _, .notANumber
  | .infinity _, .infinity _ | .zero _, .zero _ => exact .inl unpack_pack_notANumber
  | .infinity s, .finite t _ _ _ | .infinity s, .zero t | .finite s _ _ _, .zero t =>
    exact .inl (unpack_pack_infinity (s / t))
  | .zero s, .infinity t | .zero s, .finite t _ _ _ | .finite s _ _ _, .infinity t =>
    exact .inl (unpack_pack_zero (s / t))

/-- The sign of a quotient comes from the signs of its parts alone. -/
theorem neg_left_div (x y : Float) : -x / y = -(x / y) := by
  have hneg : pack Format.binary64 (x.toModel.unpack.div Format.binary64 y.toModel.unpack).neg =
      pack Format.binary64 (x / y).toModel.unpack.neg := by
    rw [unpack_div]
    rcases unpack_pack_div x.toModel.unpack y.toModel.unpack with hunpack | ⟨s, m, e, hm, heq, hlt⟩
    · rw [hunpack]
    · rw [heq, pack_of_lt hlt, unpack_pack_infinity]
      exact pack_of_lt hlt
  have hmodel : Float.Model.pack ((-x).toModel.unpack.div Format.binary64 y.toModel.unpack) =
      Float.Model.pack (x / y).toModel.unpack.neg := by
    rw [unpack_neg, unpacked_neg_div]
    unfold Float.Model.pack
    simp only [hneg]
  exact congrArg Float.ofModel hmodel

end Worksheet.Binary
