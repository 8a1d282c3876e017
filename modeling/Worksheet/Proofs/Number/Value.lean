import Mathlib
import Worksheet.Proofs.Number.Order

/-! The rational number that a double stands for. Finite doubles compare as their numbers do; negation and absolute
    value are exact; and packing loses nothing of what can be unpacked. -/

namespace Worksheet.Binary
open Float.Model (UnpackedFloat Format)
open Float.Model.UnpackedFloat

/-- The number that an unpacked double stands for; 0 if it is not finite. -/
def unpackedValue : UnpackedFloat → ℚ
  | .finite s m e _ => s.apply m * (2 : ℚ) ^ e
  | _ => 0

/-- A finite number as it is unpacked: the mantissa has 53 bits, or fewer with the least exponent. -/
def IsCanonical : UnpackedFloat → Prop
  | .finite _ m e _ => m < 2 ^ 53 ∧ -1074 ≤ e ∧ (2 ^ 52 ≤ m ∨ e = -1074)
  | _ => True

/-- The exponent is one that doubles have. -/
def IsBounded : UnpackedFloat → Prop
  | .finite _ _ e _ => e ≤ 971
  | _ => True

theorem toNat_one_append (m : BitVec 52) : (1#1 ++ m).toNat = 2 ^ 52 + m.toNat := by
  rw [BitVec.toNat_append, ← Nat.shiftLeft_add_eq_or_of_lt m.isLt]
  rfl

/-- What is unpacked is canonical, with an exponent that doubles have. -/
theorem isCanonical_unpack (b : BitVec Format.binary64.numBits) :
    IsCanonical (unpack Format.binary64 b) ∧ IsBounded (unpack Format.binary64 b) := by
  unfold unpack
  have hmantissa : (unpackMantissa b : BitVec 52).toNat < 2 ^ 52 := (unpackMantissa b : BitVec 52).isLt
  have hexponent : (unpackExponent b : BitVec 11).toNat < 2 ^ 11 := (unpackExponent b : BitVec 11).isLt
  dsimp only
  split
  · split <;> exact ⟨trivial, trivial⟩
  · rename_i hlast
    have hlast : (unpackExponent b : BitVec 11).toNat ≠ 2047 := fun h => hlast (BitVec.eq_of_toNat_eq h)
    split
    · rename_i hzero
      have hzero : (unpackExponent b : BitVec 11).toNat = 0 := congrArg BitVec.toNat hzero
      split
      · exact ⟨trivial, trivial⟩
      · rw [hzero]
        exact ⟨⟨by omega, by decide, .inr (by decide)⟩, (by decide : (-1074 : ℤ) ≤ 971)⟩
    · rename_i hzero
      have hzero : (unpackExponent b : BitVec 11).toNat ≠ 0 := fun h => hzero (BitVec.eq_of_toNat_eq h)
      have hbias : (Format.binary64.exponentBias : ℤ) = 1023 := rfl
      refine ⟨⟨?_, ?_, .inl ?_⟩, ?_⟩
      · rw [toNat_one_append]
        omega
      · rw [hbias]
        show -1074 ≤ ((unpackExponent b : BitVec 11).toNat : ℤ) - (1023 + 52)
        omega
      · rw [toNat_one_append]
        omega
      · rw [hbias]
        show ((unpackExponent b : BitVec 11).toNat : ℤ) - (1023 + 52) ≤ 971
        omega

/-! ### Order -/

section Order
variable {x y : UnpackedFloat} {m m' : ℕ} {e e' : ℤ}

theorem compare_neg_neg_eq (a b : ℚ) : compare (-a) (-b) = (compare a b).swap := by
  rcases lt_trichotomy a b with h | rfl | h
  · rw [compare_lt_iff_lt.mpr h, compare_gt_iff_gt.mpr (neg_lt_neg h)]
    rfl
  · rw [compare_eq_iff_eq.mpr rfl, compare_eq_iff_eq.mpr rfl]
    rfl
  · rw [compare_gt_iff_gt.mpr h, compare_lt_iff_lt.mpr (neg_lt_neg h)]
    rfl

/-- Of two canonical numbers the one with the greater exponent is greater. -/
theorem mantissa_mul_lt (hm : m < 2 ^ 53) (hm' : 2 ^ 52 ≤ m') (h : e < e') :
    (m : ℚ) * 2 ^ e < m' * 2 ^ e' := by
  have hpower : (2 : ℚ) * 2 ^ e ≤ 2 ^ e' := by
    rw [← zpow_one_add₀ (by norm_num : (2 : ℚ) ≠ 0)]
    exact zpow_le_zpow_right₀ (by norm_num) (by omega)
  have hmantissa : (m : ℚ) < m' * 2 := by exact_mod_cast (by omega : m < m' * 2)
  calc (m : ℚ) * 2 ^ e < m' * 2 * 2 ^ e := by gcongr
    _ = m' * (2 * 2 ^ e) := by ring
    _ ≤ m' * 2 ^ e' := by gcongr

theorem compare_mantissa_mul (hm : m < 2 ^ 53) (he : 2 ^ 52 ≤ m ∨ e = -1074) (hle : -1074 ≤ e)
    (hm' : m' < 2 ^ 53) (he' : 2 ^ 52 ≤ m' ∨ e' = -1074) (hle' : -1074 ≤ e') :
    (compare e e').then (compare m m') = compare ((m : ℚ) * 2 ^ e) (m' * 2 ^ e') := by
  rcases lt_trichotomy e e' with h | rfl | h
  · have hlt := mantissa_mul_lt hm (he'.resolve_right (by omega)) h
    rw [compare_lt_iff_lt.mpr h, compare_lt_iff_lt.mpr hlt]
    rfl
  · rw [compare_eq_iff_eq.mpr rfl, Ordering.then]
    have hpos : (0 : ℚ) < 2 ^ e := by positivity
    rcases lt_trichotomy m m' with h | rfl | h
    · rw [compare_lt_iff_lt.mpr h, compare_lt_iff_lt.mpr (by gcongr)]
    · rw [compare_eq_iff_eq.mpr rfl, compare_eq_iff_eq.mpr rfl]
    · rw [compare_gt_iff_gt.mpr h, compare_gt_iff_gt.mpr (by gcongr)]
  · have hlt := mantissa_mul_lt hm' (he.resolve_right (by omega)) h
    rw [compare_gt_iff_gt.mpr h, compare_gt_iff_gt.mpr hlt]
    rfl

@[simp] theorem unpackedValue_positive (hm : 0 < m) : unpackedValue (.finite .positive m e hm) = m * 2 ^ e := rfl

@[simp] theorem unpackedValue_negative (hm : 0 < m) : unpackedValue (.finite .negative m e hm) = -(m * 2 ^ e) := by
  show ((-(m : ℤ) : ℤ) : ℚ) * 2 ^ e = _
  rw [Int.cast_neg, Int.cast_natCast, neg_mul]

@[simp] theorem unpackedValue_zero (s : Sign) : unpackedValue (.zero s) = 0 := rfl

/-- Finite numbers compare as the numbers that they stand for. -/
theorem compare_eq (hx : x.isFinite = true) (hy : y.isFinite = true) (hcx : IsCanonical x) (hcy : IsCanonical y) :
    x.compare y = some (compare (unpackedValue x) (unpackedValue y)) := by
  have hpos {m : ℕ} {e : ℤ} (hm : 0 < m) : (0 : ℚ) < m * 2 ^ e := by positivity
  match x, y, hx, hy, hcx, hcy with
  | .zero _, .zero _, _, _, _, _ => rfl
  | .zero _, .finite .positive m e hm, _, _, _, _ =>
    rw [unpackedValue_zero, unpackedValue_positive, compare_lt_iff_lt.mpr (hpos hm)]
    rfl
  | .zero _, .finite .negative m e hm, _, _, _, _ =>
    rw [unpackedValue_zero, unpackedValue_negative, compare_gt_iff_gt.mpr (neg_neg_of_pos (hpos hm))]
    rfl
  | .finite .positive m e hm, .zero _, _, _, _, _ =>
    rw [unpackedValue_zero, unpackedValue_positive, compare_gt_iff_gt.mpr (hpos hm)]
    rfl
  | .finite .negative m e hm, .zero _, _, _, _, _ =>
    rw [unpackedValue_zero, unpackedValue_negative, compare_lt_iff_lt.mpr (neg_neg_of_pos (hpos hm))]
    rfl
  | .finite .positive m e hm, .finite .negative m' e' hm', _, _, _, _ =>
    rw [unpackedValue_positive, unpackedValue_negative,
      compare_gt_iff_gt.mpr ((neg_neg_of_pos (hpos hm')).trans (hpos hm))]
    rfl
  | .finite .negative m e hm, .finite .positive m' e' hm', _, _, _, _ =>
    rw [unpackedValue_positive, unpackedValue_negative,
      compare_lt_iff_lt.mpr ((neg_neg_of_pos (hpos hm)).trans (hpos hm'))]
    rfl
  | .finite .positive m e hm, .finite .positive m' e' hm', _, _, ⟨hmlt, hmin, hfull⟩, ⟨hmlt', hmin', hfull'⟩ =>
    rw [unpackedValue_positive, unpackedValue_positive,
      ← compare_mantissa_mul hmlt hfull hmin hmlt' hfull' hmin']
    rfl
  | .finite .negative m e hm, .finite .negative m' e' hm', _, _, ⟨hmlt, hmin, hfull⟩, ⟨hmlt', hmin', hfull'⟩ =>
    rw [unpackedValue_negative, unpackedValue_negative, compare_neg_neg_eq,
      ← compare_mantissa_mul hmlt hfull hmin hmlt' hfull' hmin']
    rfl

end Order

/-! ### Doubles -/

/-- The number that a finite double stands for; 0 for other doubles. -/
def value (x : Float) : ℚ := unpackedValue x.toModel.unpack

section Doubles
variable {x y z : Float}

theorem compare_of_isFinite (hx : x.isFinite = true) (hy : y.isFinite = true) :
    x.toModel.unpack.compare y.toModel.unpack = some (compare (value x) (value y)) :=
  compare_eq hx hy (isCanonical_unpack _).1 (isCanonical_unpack _).1

theorem lt_iff_value (hx : x.isFinite = true) (hy : y.isFinite = true) : x < y ↔ value x < value y := by
  rw [lt_iff, UnpackedFloat.lt, compare_of_isFinite hx hy, beq_iff_eq, Option.some.injEq, compare_lt_iff_lt]

theorem le_iff_value (hx : x.isFinite = true) (hy : y.isFinite = true) : x ≤ y ↔ value x ≤ value y := by
  rw [le_iff, UnpackedFloat.le, compare_of_isFinite hx hy, Option.any_some, Ordering.isLE_iff_ne_gt]
  exact compare_le_iff_le

theorem beq_iff_value (hx : x.isFinite = true) (hy : y.isFinite = true) : (x == y) = true ↔ value x = value y := by
  show (x.toModel.unpack.compare y.toModel.unpack == some .eq) = true ↔ _
  rw [compare_of_isFinite hx hy, beq_iff_eq, Option.some.injEq, compare_eq_iff_eq]

end Doubles

/-! ### Packing -/

theorem finite_congr {s : Sign} {m m' : ℕ} {e e' : ℤ} {hm : 0 < m} (h : m = m') (he : e = e') :
    UnpackedFloat.finite s m e hm = .finite s m' e' (h ▸ hm) := by
  subst h he
  rfl

theorem unpack_normal (s : Sign) {e : BitVec 11} (m : BitVec 52) (hpos : e.toNat ≠ 0) (hlast : e.toNat ≠ 2047) :
    unpack Format.binary64 (packComponents Format.binary64 s e m) =
      .finite s (2 ^ 52 + m.toNat) (e.toNat - 1075) (by omega) := by
  have hzero : e ≠ 0#11 := fun h => hpos (congrArg BitVec.toNat h)
  have hlast : e ≠ -1#11 := fun h => hlast (congrArg BitVec.toNat h)
  unfold unpack
  dsimp only
  rw [if_neg (unpackExponent_packComponents ▸ hlast), if_neg (unpackExponent_packComponents ▸ hzero)]
  rw [unpackSign_packComponents, Sign.ofBitVec_toBitVec]
  refine finite_congr ?_ ?_
  · rw [unpackMantissa_packComponents]
    exact toNat_one_append m
  · rw [unpackExponent_packComponents]
    rfl

theorem unpack_subnormal (s : Sign) {m : BitVec 52} (hm : m.toNat ≠ 0) :
    unpack Format.binary64 (packComponents Format.binary64 s 0#11 m) =
      .finite s m.toNat (-1074) (Nat.pos_of_ne_zero hm) := by
  have hm : m ≠ 0#52 := fun h => hm (congrArg BitVec.toNat h)
  unfold unpack
  dsimp only
  rw [if_neg (unpackExponent_packComponents ▸ (by decide : 0#11 ≠ -1#11)), if_pos unpackExponent_packComponents,
    dif_neg (unpackMantissa_packComponents ▸ hm), unpackSign_packComponents, Sign.ofBitVec_toBitVec]
  refine finite_congr ?_ ?_
  · rw [unpackMantissa_packComponents]
  · rw [unpackExponent_packComponents]
    rfl

/-- Packing loses nothing of what can be unpacked. -/
theorem unpack_pack {u : UnpackedFloat} (h : IsCanonical u) (hmax : IsBounded u) :
    unpack Format.binary64 (pack Format.binary64 u) = u := by
  match u, h, hmax with
  | .notANumber, _, _ => rfl
  | .infinity .positive, _, _ => rfl
  | .infinity .negative, _, _ => rfl
  | .zero .positive, _, _ => rfl
  | .zero .negative, _, _ => rfl
  | .finite s m e hm, ⟨hlt, hmin, hfull⟩, hmax =>
    have hmax : e ≤ 971 := hmax
    have hbias : (e + (Format.binary64.exponentBias : ℤ) + (Format.binary64.mantissaBitsWithoutImplicit : ℤ)).toNat =
        (e + 1075).toNat := congrArg Int.toNat (add_assoc e 1023 52)
    unfold pack
    dsimp only
    rw [hbias, if_neg (show ¬2 ^ 11 ≤ (e + 1075).toNat + 1 by omega)]
    by_cases hbits : 2 ^ 52 ≤ m
    · have hlog : m.log2 + 1 = Format.binary64.mantissaBits := by
        rw [(Nat.log2_eq_iff hm.ne').mpr ⟨hbits, hlt⟩]
        rfl
      have hexponent : (BitVec.ofNat 11 (e + 1075).toNat).toNat = (e + 1075).toNat := by
        rw [BitVec.toNat_ofNat, Nat.mod_eq_of_lt (by omega)]
      rw [if_pos hlog, unpack_normal s _ (by rw [hexponent]; omega) (by rw [hexponent]; omega)]
      refine finite_congr ?_ ?_
      · rw [BitVec.toNat_ofNat]
        omega
      · rw [hexponent]
        omega
    · obtain rfl := hfull.resolve_left hbits
      have hlog : ¬m.log2 + 1 = Format.binary64.mantissaBits := by
        have := (Nat.log2_lt hm.ne').mpr (not_le.mp hbits)
        show ¬m.log2 + 1 = 53
        omega
      have hmantissa : (BitVec.ofNat 52 m).toNat = m := by
        rw [BitVec.toNat_ofNat, Nat.mod_eq_of_lt (by omega)]
      rw [if_neg hlog, unpack_subnormal s (by omega)]
      exact finite_congr hmantissa rfl

/-! ### Negation and absolute value -/

section Sign
variable (x : Float)

theorem unpack_neg : (-x).toModel.unpack = x.toModel.unpack.neg := by
  obtain ⟨hcanonical, hbounded⟩ := isCanonical_unpack x.toModel.toBits.toBitVec
  refine unpack_pack (u := x.toModel.unpack.neg) ?_ ?_
  · unfold Float.Model.unpack
    cases hx : unpack Format.binary64 x.toModel.toBits.toBitVec <;> rw [hx] at hcanonical <;> exact hcanonical
  · unfold Float.Model.unpack
    cases hx : unpack Format.binary64 x.toModel.toBits.toBitVec <;> rw [hx] at hbounded <;> exact hbounded

theorem unpack_abs : x.abs.toModel.unpack = x.toModel.unpack.abs := by
  obtain ⟨hcanonical, hbounded⟩ := isCanonical_unpack x.toModel.toBits.toBitVec
  refine unpack_pack (u := x.toModel.unpack.abs) ?_ ?_
  · unfold Float.Model.unpack
    cases hx : unpack Format.binary64 x.toModel.toBits.toBitVec <;> rw [hx] at hcanonical <;> exact hcanonical
  · unfold Float.Model.unpack
    cases hx : unpack Format.binary64 x.toModel.toBits.toBitVec <;> rw [hx] at hbounded <;> exact hbounded

@[simp] theorem isFinite_neg : (-x).isFinite = x.isFinite := by
  show (-x).toModel.unpack.isFinite = x.toModel.unpack.isFinite
  rw [unpack_neg]
  cases x.toModel.unpack <;> rfl

@[simp] theorem isNaN_neg : (-x).isNaN = x.isNaN := by
  show (-x).toModel.unpack.isNaN = x.toModel.unpack.isNaN
  rw [unpack_neg]
  cases x.toModel.unpack <;> rfl

@[simp] theorem isFinite_abs : x.abs.isFinite = x.isFinite := by
  show x.abs.toModel.unpack.isFinite = x.toModel.unpack.isFinite
  rw [unpack_abs]
  cases x.toModel.unpack <;> rfl

@[simp] theorem value_neg : value (-x) = -value x := by
  unfold value
  rw [unpack_neg]
  match x.toModel.unpack with
  | .notANumber | .infinity _ | .zero _ => exact neg_zero.symm
  | .finite .positive m e hm => exact unpackedValue_negative hm
  | .finite .negative m e hm =>
    rw [unpackedValue_negative, neg_neg]
    rfl

@[simp] theorem value_abs : value x.abs = |value x| := by
  unfold value
  rw [unpack_abs]
  match x.toModel.unpack with
  | .notANumber | .infinity _ | .zero _ => exact abs_zero.symm
  | .finite .positive m e hm =>
    rw [unpackedValue_positive, abs_of_nonneg (by positivity)]
    rfl
  | .finite .negative m e hm =>
    rw [unpackedValue_negative, abs_neg, abs_of_nonneg (by positivity)]
    rfl

end Sign

/-! ### Comparing with zero -/

section Zero
variable {x y : Float}

theorem isNaN_of_zero_lt (h : 0 < x) : x.isNaN = false := by
  rw [zero_lt_iff] at h
  show x.toModel.unpack.isNaN = false
  revert h
  cases x.toModel.unpack with
  | notANumber => exact False.elim
  | _ => exact fun _ => rfl

theorem isNaN_of_lt_zero (h : x < 0) : x.isNaN = false := by
  rw [lt_iff] at h
  show x.toModel.unpack.isNaN = false
  revert h
  cases x.toModel.unpack with
  | notANumber => exact fun h => absurd h Bool.false_ne_true
  | _ => exact fun _ => rfl

/-- A double other than NaN has a sign, or is a zero. -/
theorem sign_cases (h : x.isNaN = false) : x < 0 ∨ (x == 0) = true ∨ 0 < x := by
  change x.toModel.unpack.isNaN = false at h
  rw [lt_iff, lt_iff]
  show _ ∨ x.toModel.unpack.beq (.zero .positive) = true ∨ UnpackedFloat.lt (.zero .positive) _ = true
  revert h
  cases x.toModel.unpack with
  | notANumber => exact fun h => nomatch h
  | zero s => exact fun _ => .inr (.inl rfl)
  | infinity s =>
    cases s with
    | negative => exact fun _ => .inl rfl
    | positive => exact fun _ => .inr (.inr rfl)
  | finite s m e hm =>
    cases s with
    | negative => exact fun _ => .inl rfl
    | positive => exact fun _ => .inr (.inr rfl)

theorem not_lt_zero (h : 0 < x) : ¬x < 0 := by
  rw [zero_lt_iff] at h
  rw [lt_iff, Bool.not_eq_true]
  show x.toModel.unpack.lt (.zero .positive) = false
  revert h
  cases x.toModel.unpack with
  | notANumber => exact False.elim
  | zero s => exact False.elim
  | infinity s =>
    cases s with
    | negative => exact False.elim
    | positive => exact fun _ => rfl
  | finite s m e hm =>
    cases s with
    | negative => exact False.elim
    | positive => exact fun _ => rfl

theorem not_zero_lt (h : x < 0) : ¬0 < x := fun h' => not_lt_zero h' h

theorem beq_zero_eq_false_of_lt (h : x < 0) : (x == 0) = false := by
  rw [lt_iff, UnpackedFloat.lt, beq_iff_eq] at h
  show (x.toModel.unpack.compare (.zero .positive) == some .eq) = false
  rw [show x.toModel.unpack.compare (.zero .positive) = some .lt from h]
  rfl

theorem beq_zero_eq_false_of_gt (h : 0 < x) : (x == 0) = false := by
  rw [zero_lt_iff] at h
  show (x.toModel.unpack.compare (.zero .positive) == some .eq) = false
  revert h
  cases x.toModel.unpack with
  | notANumber => exact fun _ => rfl
  | zero s => exact False.elim
  | infinity s => cases s <;> exact fun _ => rfl
  | finite s m e hm => cases s <;> exact fun _ => rfl

/-- No magnitude is less than that of a zero. -/
theorem not_abs_lt_of_beq_zero (h : (y == 0) = true) : ¬x.abs < y.abs := by
  change y.toModel.unpack.beq (.zero .positive) = true at h
  have hy : ∃ s, y.toModel.unpack = .zero s := by
    revert h
    cases y.toModel.unpack with
    | zero s => exact fun _ => ⟨s, rfl⟩
    | notANumber => exact fun h => absurd h Bool.false_ne_true
    | infinity s => cases s <;> exact fun h => absurd h Bool.false_ne_true
    | finite s m e hm => cases s <;> exact fun h => absurd h Bool.false_ne_true
  obtain ⟨s, hy⟩ := hy
  rw [lt_iff, unpack_abs, unpack_abs, hy, Bool.not_eq_true]
  cases x.toModel.unpack <;> rfl

end Zero

/-! ### Infinite doubles -/

section Infinite
variable {x y : Float}

@[simp] theorem unpack_pack_notANumber :
    unpack Format.binary64 (pack Format.binary64 .notANumber) = .notANumber := rfl

@[simp] theorem unpack_pack_infinity (s : Sign) :
    unpack Format.binary64 (pack Format.binary64 (.infinity s)) = .infinity s := by cases s <;> rfl

@[simp] theorem unpack_pack_zero (s : Sign) :
    unpack Format.binary64 (pack Format.binary64 (.zero s)) = .zero s := by cases s <;> rfl

theorem not_isFinite_pack_notANumber : ¬(unpack Format.binary64 (pack Format.binary64 .notANumber)).isFinite = true :=
  Bool.false_ne_true

theorem not_isFinite_pack_infinity (s : Sign) :
    ¬(unpack Format.binary64 (pack Format.binary64 (.infinity s))).isFinite = true := by
  rw [unpack_pack_infinity]
  exact Bool.false_ne_true

theorem not_isPositive_pack_notANumber : ¬IsPositive (unpack Format.binary64 (pack Format.binary64 .notANumber)) := id

theorem not_isPositive_pack_infinity :
    ¬IsPositive (unpack Format.binary64 (pack Format.binary64 (.infinity .negative))) := id

theorem unpack_add (x y : Float) : (x + y).toModel.unpack =
    unpack Format.binary64 (pack Format.binary64 (x.toModel.unpack.add Format.binary64 y.toModel.unpack)) := rfl

theorem unpack_sub (x y : Float) : (x - y).toModel.unpack =
    unpack Format.binary64 (pack Format.binary64 (x.toModel.unpack.sub Format.binary64 y.toModel.unpack)) := rfl

theorem unpack_mul (x y : Float) : (x * y).toModel.unpack =
    unpack Format.binary64 (pack Format.binary64 (x.toModel.unpack.mul Format.binary64 y.toModel.unpack)) := rfl

theorem unpack_div (x y : Float) : (x / y).toModel.unpack =
    unpack Format.binary64 (pack Format.binary64 (x.toModel.unpack.div Format.binary64 y.toModel.unpack)) := rfl

theorem isFinite_iff : x.isFinite = true ↔ x.toModel.unpack.isFinite = true := Iff.rfl

theorem lt_zero_iff : x < 0 ↔ x.toModel.unpack.lt (.zero .positive) = true := lt_iff

/-- A double that is not finite is NaN or infinity. -/
theorem unpack_of_not_isFinite (h : ¬x.isFinite = true) :
    x.toModel.unpack = .notANumber ∨ ∃ s, x.toModel.unpack = .infinity s := by
  rw [isFinite_iff] at h
  cases hx : x.toModel.unpack with
  | notANumber => exact .inl rfl
  | infinity s => exact .inr ⟨s, rfl⟩
  | zero s => exact absurd rfl (hx ▸ h)
  | finite s m e hm => exact absurd rfl (hx ▸ h)

theorem unpack_of_isFinite (h : x.isFinite = true) :
    (∃ s, x.toModel.unpack = .zero s) ∨ ∃ s m e hm, x.toModel.unpack = .finite s m e hm := by
  rw [isFinite_iff] at h
  cases hx : x.toModel.unpack with
  | notANumber => cases hx ▸ h
  | infinity s => cases hx ▸ h
  | zero s => exact .inl ⟨s, rfl⟩
  | finite s m e hm => exact .inr ⟨s, m, e, hm, rfl⟩

theorem isNaN_of_isFinite (h : x.isFinite = true) : x.isNaN = false := by
  show x.toModel.unpack.isNaN = false
  rcases unpack_of_isFinite h with ⟨s, hx⟩ | ⟨s, m, e, hm, hx⟩ <;> rw [hx] <;> rfl

theorem isInf_of_isFinite (h : x.isFinite = true) : x.isInf = false := by
  show x.toModel.unpack.isInf = false
  rcases unpack_of_isFinite h with ⟨s, hx⟩ | ⟨s, m, e, hm, hx⟩ <;> rw [hx] <;> rfl

theorem compare_notANumber_left (y : UnpackedFloat) : UnpackedFloat.compare .notANumber y = none := by
  cases y <;> rfl

theorem compare_notANumber_right (x : UnpackedFloat) : x.compare .notANumber = none := by
  cases x <;> rfl

/-- Finite numbers are between the infinities. -/
theorem compare_infinity_left {y : UnpackedFloat} (h : y.isFinite = true) :
    UnpackedFloat.compare (.infinity .positive) y = some .gt ∧
      UnpackedFloat.compare (.infinity .negative) y = some .lt := by
  cases y with
  | zero t => exact ⟨rfl, rfl⟩
  | finite t m e hm => exact ⟨rfl, rfl⟩
  | _ => cases h

theorem compare_infinity_right {x : UnpackedFloat} (h : x.isFinite = true) :
    x.compare (.infinity .positive) = some .lt ∧ x.compare (.infinity .negative) = some .gt := by
  cases x with
  | zero t => exact ⟨rfl, rfl⟩
  | finite t m e hm => cases t <;> exact ⟨rfl, rfl⟩
  | _ => cases h

/-- Infinity is the only double above a finite one that is not finite itself. -/
theorem isFinite_or_zero_lt (h : x < y) (hx : x.isFinite = true) : y.isFinite = true ∨ 0 < y := by
  rw [or_iff_not_imp_left]
  intro hy
  rw [zero_lt_iff]
  rw [lt_iff, UnpackedFloat.lt] at h
  rcases unpack_of_not_isFinite hy with hy | ⟨s | s, hy⟩ <;> rw [hy] at h ⊢
  · rw [compare_notANumber_right] at h
    cases h
  · rw [(compare_infinity_right hx).2] at h
    cases h
  · trivial

/-- Minus infinity is the only double up to a finite one that is not finite itself. -/
theorem isFinite_or_lt_zero (h : x ≤ y) (hy : y.isFinite = true) : x.isFinite = true ∨ x < 0 := by
  rw [or_iff_not_imp_left]
  intro hx
  rw [lt_zero_iff]
  rw [le_iff, UnpackedFloat.le] at h
  rcases unpack_of_not_isFinite hx with hx | ⟨s | s, hx⟩ <;> rw [hx] at h ⊢
  · rw [compare_notANumber_left] at h
    cases h
  · rfl
  · rw [(compare_infinity_left hy).1] at h
    cases h

theorem beq_eq_false_of_not_isFinite (hx : ¬x.isFinite = true) (hy : y.isFinite = true) : (x == y) = false := by
  show (x.toModel.unpack.compare y.toModel.unpack == some .eq) = false
  rcases unpack_of_not_isFinite hx with hx | ⟨s | s, hx⟩ <;> rw [hx]
  · rw [compare_notANumber_left]
    rfl
  · rw [(compare_infinity_left hy).2]
    rfl
  · rw [(compare_infinity_left hy).1]
    rfl

theorem isFinite_of_beq (h : (x == y) = true) (hy : y.isFinite = true) : x.isFinite = true := by
  by_contra hx
  rw [beq_eq_false_of_not_isFinite hx hy] at h
  exact Bool.false_ne_true h

theorem lt_of_not_isFinite (hx : x.isFinite = true) (hy : ¬y.isFinite = true) (hpos : 0 < y) : x < y := by
  rw [zero_lt_iff] at hpos
  rw [lt_iff, UnpackedFloat.lt]
  rcases unpack_of_not_isFinite hy with hy | ⟨s | s, hy⟩ <;> rw [hy] at hpos ⊢
  · cases hpos
  · cases hpos
  · rw [(compare_infinity_right hx).1]
    rfl

/-- Nothing is greater than infinity, and NaN is less than nothing. -/
theorem isFinite_of_lt (h : x < y) (hx : ¬x < 0) : x.isFinite = true := by
  by_contra hfinite
  rw [lt_iff] at h
  rw [lt_zero_iff] at hx
  rcases unpack_of_not_isFinite hfinite with h' | ⟨s | s, h'⟩ <;> rw [h'] at h hx
  · exact absurd h Bool.false_ne_true
  · exact hx rfl
  · revert h
    cases y.toModel.unpack with
    | infinity s => cases s <;> exact fun h => absurd h Bool.false_ne_true
    | _ => exact fun h => absurd h Bool.false_ne_true

theorem not_abs_lt_zero (x : Float) : ¬x.abs < 0 := by
  rw [lt_zero_iff, unpack_abs]
  cases x.toModel.unpack <;> exact Bool.false_ne_true

/-- A product with a factor that is not finite. -/
theorem mul_of_not_isFinite {a b : UnpackedFloat} (h : a.isFinite = false ∨ b.isFinite = false) :
    a.mul Format.binary64 b = .notANumber ∨ ∃ s, a.mul Format.binary64 b = .infinity s := by
  cases a with
  | notANumber => exact .inl rfl
  | infinity s =>
    cases b with
    | notANumber => exact .inl rfl
    | zero t => exact .inl rfl
    | infinity t => exact .inr ⟨_, rfl⟩
    | finite t m e hm => exact .inr ⟨_, rfl⟩
  | zero s =>
    cases b with
    | notANumber => exact .inl rfl
    | infinity t => exact .inl rfl
    | _ => rcases h with h | h <;> cases h
  | finite s m e hm =>
    cases b with
    | notANumber => exact .inl rfl
    | infinity t => exact .inr ⟨_, rfl⟩
    | _ => rcases h with h | h <;> cases h

theorem not_isFinite_mul (h : ¬x.isFinite = true ∨ ¬y.isFinite = true) : ¬(x * y).isFinite = true := by
  rw [isFinite_iff, isFinite_iff, Bool.not_eq_true, Bool.not_eq_true] at h
  rw [isFinite_iff, unpack_mul]
  rcases mul_of_not_isFinite h with h | ⟨s, h⟩ <;> rw [h]
  · exact not_isFinite_pack_notANumber
  · exact not_isFinite_pack_infinity s

theorem isNaN_right_of_zero_lt_mul (h : 0 < x * y) : y.isNaN = false := by
  rw [zero_lt_iff, unpack_mul] at h
  show y.toModel.unpack.isNaN = false
  cases hy : y.toModel.unpack with
  | notANumber =>
    have hmul (a : UnpackedFloat) : a.mul Format.binary64 .notANumber = .notANumber := by cases a <;> rfl
    rw [hy, hmul] at h
    exact absurd h not_isPositive_pack_notANumber
  | _ => rfl

/-- A product with infinity that is above zero has factors of one sign. -/
theorem signs_of_zero_lt_mul (hx : ¬x.isFinite = true) (h : 0 < x * y) : 0 < x ∧ 0 < y ∨ x < 0 ∧ y < 0 := by
  rw [zero_lt_iff, unpack_mul] at h
  rw [zero_lt_iff, zero_lt_iff, lt_zero_iff, lt_zero_iff]
  have hinfinite {s t : Sign} (h : IsPositive (unpack Format.binary64 (pack Format.binary64 (.infinity (s * t))))) :
      s = t := by
    rw [unpack_pack_infinity] at h
    cases s <;> cases t
    · rfl
    · exact h.elim
    · exact h.elim
    · rfl
  rcases unpack_of_not_isFinite hx with hx | ⟨s, hx⟩ <;> rw [hx] at h ⊢
  · exact absurd h not_isPositive_pack_notANumber
  · cases hy : y.toModel.unpack with
    | notANumber =>
      rw [hy] at h
      exact absurd h not_isPositive_pack_notANumber
    | zero t =>
      rw [hy] at h
      exact absurd h not_isPositive_pack_notANumber
    | infinity t =>
      rw [hy] at h
      obtain rfl := hinfinite h
      cases s with
      | positive => exact .inl ⟨trivial, trivial⟩
      | negative => exact .inr ⟨rfl, rfl⟩
    | finite t m e hm =>
      rw [hy] at h
      obtain rfl := hinfinite h
      cases s with
      | positive => exact .inl ⟨trivial, trivial⟩
      | negative => exact .inr ⟨rfl, rfl⟩

theorem not_isFinite_sub_abs (h : ¬x.isFinite = true) : ¬(x - y.abs).isFinite = true := by
  rw [isFinite_iff, unpack_sub, unpack_abs]
  rcases unpack_of_not_isFinite h with h | ⟨s, h⟩ <;> rw [h]
  · exact not_isFinite_pack_notANumber
  · cases y.toModel.unpack with
    | notANumber => exact not_isFinite_pack_notANumber
    | zero t => exact not_isFinite_pack_infinity s
    | infinity t =>
      cases s with
      | positive => exact not_isFinite_pack_notANumber
      | negative => exact not_isFinite_pack_infinity .negative
    | finite t m e hm => exact not_isFinite_pack_infinity s

theorem zero_lt_of_sub_abs (hx : ¬x.isFinite = true) (h : 0 < x - y.abs) : 0 < x := by
  rw [zero_lt_iff, unpack_sub, unpack_abs] at h
  rw [zero_lt_iff]
  rcases unpack_of_not_isFinite hx with hx | ⟨s | s, hx⟩ <;> rw [hx] at h ⊢
  · exact absurd h not_isPositive_pack_notANumber
  · revert h
    cases y.toModel.unpack with
    | notANumber => exact not_isPositive_pack_notANumber
    | _ => exact not_isPositive_pack_infinity
  · trivial

theorem isFinite_of_sub_abs (hx : x.isFinite = true) (h : 0 < x - y.abs) : y.isFinite = true := by
  by_contra hy
  rw [zero_lt_iff, unpack_sub, unpack_abs] at h
  revert h
  rcases unpack_of_not_isFinite hy with hy | ⟨s, hy⟩ <;> rw [hy] <;>
    rcases unpack_of_isFinite hx with ⟨t, hx⟩ | ⟨t, m, e, hm, hx⟩ <;> rw [hx]
  · exact not_isPositive_pack_notANumber
  · exact not_isPositive_pack_notANumber
  · exact not_isPositive_pack_infinity
  · exact not_isPositive_pack_infinity

/-- A finite double divided by infinity is a zero. -/
theorem div_of_not_isFinite (hx : x.isFinite = true) (hy : ¬y.isFinite = true) (hnan : y.isNaN = false) :
    (x / y).isFinite = true ∧ value (x / y) = 0 := by
  change y.toModel.unpack.isNaN = false at hnan
  have hzero : ∃ s, (x / y).toModel.unpack = .zero s := by
    rw [unpack_div]
    rcases unpack_of_not_isFinite hy with hy | ⟨s, hy⟩
    · cases hy ▸ hnan
    · rcases unpack_of_isFinite hx with ⟨t, hx⟩ | ⟨t, m, e, hm, hx⟩ <;> rw [hx, hy] <;>
        exact ⟨_, unpack_pack_zero _⟩
  obtain ⟨s, hs⟩ := hzero
  rw [isFinite_iff, value, hs]
  exact ⟨rfl, rfl⟩

end Infinite
/-! ### The smaller and the greater -/

section Extremes
variable {x y z : Float}

theorem le_smaller_iff (hx : x.isFinite = true) (hy : y.isFinite = true) (hz : z.isFinite = true) :
    z ≤ smaller x y ↔ z ≤ x ∧ z ≤ y := by
  unfold smaller
  split
  · rename_i h
    rw [lt_iff_value hy hx] at h
    rw [le_iff_value hz hy, le_iff_value hz hx]
    exact ⟨fun hzy => ⟨hzy.trans h.le, hzy⟩, And.right⟩
  · rename_i h
    rw [lt_iff_value hy hx] at h
    rw [le_iff_value hz hy, le_iff_value hz hx]
    exact ⟨fun hzx => ⟨hzx, hzx.trans (not_lt.mp h)⟩, And.left⟩

end Extremes

end Worksheet.Binary

