import Mathlib
import Worksheet.Number.Binary

/-! Order and arithmetic of doubles, as far as it takes to see that a finite number does not differ from itself by
    more than a positive share. The doubles are taken apart into sign, mantissa and exponent; only signs matter. -/

namespace Worksheet.Binary
open Float.Model (UnpackedFloat Format)
open Float.Model.UnpackedFloat

/-! ### Signs -/

/-- A number above zero. -/
def IsPositive : UnpackedFloat → Prop
  | .infinity .positive => True
  | .finite .positive _ _ _ => True
  | _ => False

/-- A number with a positive sign. -/
def IsUnsigned : UnpackedFloat → Prop
  | .zero .positive => True
  | x => IsPositive x

/-- A packed number with a positive sign is read as one. -/
theorem isUnsigned_unpack {spec : Format} {e : BitVec spec.exponentBits} {m : BitVec spec.mantissaBitsWithoutImplicit}
    (h : e = -1#_ → m = 0#_) : IsUnsigned (unpack spec (packComponents spec .positive e m)) := by
  unfold unpack
  simp only [unpackExponent_packComponents, unpackMantissa_packComponents, unpackSign_packComponents]
  split
  · rename_i he
    rw [if_pos (h he)]
    trivial
  · split
    · split <;> trivial
    · trivial

/-- Packing keeps a positive sign. -/
theorem isUnsigned_pack {spec : Format} {x : UnpackedFloat} (h : IsUnsigned x) :
    IsUnsigned (unpack spec (pack spec x)) := by
  match x, h with
  | .infinity .positive, _ => exact isUnsigned_unpack fun _ => rfl
  | .zero .positive, _ => exact isUnsigned_unpack fun _ => rfl
  | .finite .positive m e hm, _ =>
    unfold pack
    dsimp only
    split
    · exact isUnsigned_unpack fun _ => rfl
    · rename_i hsmall
      split
      · refine isUnsigned_unpack fun he => absurd (congrArg BitVec.toNat he) ?_
        rw [BitVec.neg_one_eq_allOnes, BitVec.toNat_allOnes, BitVec.toNat_ofNat, Nat.mod_eq_of_lt (by omega)]
        omega
      · refine isUnsigned_unpack fun he => absurd (congrArg BitVec.toNat he) ?_
        have := Nat.one_lt_two_pow (Nat.ne_of_gt spec.he)
        rw [BitVec.neg_one_eq_allOnes, BitVec.toNat_allOnes]
        simp
        omega

/-! ### Comparing -/

theorem isPositive_of_lt {x y : UnpackedFloat} (hx : IsPositive x) (h : x.lt y = true) : IsPositive y := by
  match x, y, hx, h with
  | .infinity .positive, .infinity .negative, _, h => cases h
  | .infinity .positive, .notANumber, _, h => cases h
  | .infinity .positive, .zero _, _, h => cases h
  | .infinity .positive, .finite _ _ _ _, _, h => cases h
  | .finite .positive _ _ _, .infinity .negative, _, h => cases h
  | .finite .positive _ _ _, .notANumber, _, h => cases h
  | .finite .positive _ _ _, .zero _, _, h => cases h
  | .finite .positive _ _ _, .finite .negative _ _ _, _, h => cases h
  | _, .infinity .positive, _, _ => trivial
  | _, .finite .positive _ _ _, _, _ => trivial

theorem zero_le_of_isUnsigned {x : UnpackedFloat} (s : Sign) (h : IsUnsigned x) :
    UnpackedFloat.le (.zero s) x = true := by
  match x, h with
  | .infinity .positive, _ => rfl
  | .zero .positive, _ => rfl
  | .finite .positive _ _ _, _ => rfl

theorem isUnsigned_mul {spec : Format} {x y : UnpackedFloat} (hx : IsPositive x) (hy : IsPositive y) :
    IsUnsigned (UnpackedFloat.mul spec x y) := by
  match x, y, hx, hy with
  | .infinity .positive, .infinity .positive, _, _ => trivial
  | .infinity .positive, .finite .positive _ _ _, _, _ => trivial
  | .finite .positive _ _ _, .infinity .positive, _, _ => trivial
  | .finite .positive m e _, .finite .positive m' e' _, _, _ =>
    show IsUnsigned (roundWithAccuracy spec .positive (m * m') (e + e') .exact)
    unfold roundWithAccuracy
    dsimp only
    split <;> trivial

theorem sub_of_isFinite {spec : Format} {x : UnpackedFloat} (h : x.isFinite = true) :
    UnpackedFloat.sub spec x x = .zero .positive := by
  match x, h with
  | .zero .positive, _ => rfl
  | .zero .negative, _ => rfl
  | .finite s m e hm, _ =>
    unfold UnpackedFloat.sub
    dsimp only
    rw [Int.sub_self]
    rfl

/-! ### Doubles -/

section Doubles
variable {x y : Float}

theorem lt_iff : x < y ↔ x.toModel.unpack.lt y.toModel.unpack = true := decide_eq_true_iff

theorem le_iff : x ≤ y ↔ x.toModel.unpack.le y.toModel.unpack = true := decide_eq_true_iff

theorem zero_lt_iff : 0 < x ↔ IsPositive x.toModel.unpack := by
  rw [lt_iff]
  show UnpackedFloat.lt (.zero .positive) x.toModel.unpack = true ↔ _
  cases x.toModel.unpack with
  | notANumber => exact iff_of_false Bool.false_ne_true id
  | zero s => exact iff_of_false Bool.false_ne_true id
  | infinity s =>
    cases s with
    | negative => exact iff_of_false Bool.false_ne_true id
    | positive => exact iff_of_true rfl trivial
  | finite s m e hm =>
    cases s with
    | negative => exact iff_of_false Bool.false_ne_true id
    | positive => exact iff_of_true rfl trivial

theorem zero_lt_greater (y : Float) (hx : 0 < x) : 0 < greater x y := by
  unfold greater
  split
  · rename_i hlt
    exact zero_lt_iff.mpr (isPositive_of_lt (zero_lt_iff.mp hx) (lt_iff.mp hlt))
  · exact hx

theorem zero_le_mul (hx : 0 < x) (hy : 0 < y) : 0 ≤ x * y := by
  have hproduct : IsUnsigned (x * y).toModel.unpack :=
    isUnsigned_pack (isUnsigned_mul (zero_lt_iff.mp hx) (zero_lt_iff.mp hy))
  exact le_iff.mpr (zero_le_of_isUnsigned .positive hproduct)

theorem sub_self_of_isFinite (h : x.isFinite = true) : x - x = 0 :=
  congrArg (fun u => Float.ofModel (Float.Model.pack u)) (sub_of_isFinite h)

end Doubles

end Worksheet.Binary
