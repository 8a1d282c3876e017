import Worksheet.Number.Binary
import Worksheet.Proofs.Number.Rounding

/-! The double nearest to a quotient. The bits of a double say how many units it is; rounding a quotient of natural
    numbers to the nearest one, ties to even, gives the bits of the double that no other one is nearer than. -/

namespace Worksheet.Binary
open Float.Model (UnpackedFloat Format)
open Float.Model.UnpackedFloat

/-! ### Rounding to even -/

/-- The natural number nearest to `q` is `c`, which is even if another one is equally near. -/
def RoundsEven (q : ℚ) (c : ℕ) : Prop := |q - c| < 1 / 2 ∨ |q - c| = 1 / 2 ∧ c % 2 = 0

section RoundsEven
variable {q q' : ℚ} {c c' : ℕ}

theorem RoundsEven.le_half (h : RoundsEven q c) : |q - c| ≤ 1 / 2 := h.elim le_of_lt fun h => h.1.le

theorem RoundsEven.unique (h : RoundsEven q c) (h' : RoundsEven q c') : c = c' := by
  by_contra hne
  have hle := abs_le.mp h.le_half
  have hle' := abs_le.mp h'.le_half
  wlog hlt : c < c' generalizing c c'
  · exact this h' h (Ne.symm hne) hle' hle (by omega)
  have hcast : (c : ℚ) + 1 ≤ c' := by exact_mod_cast hlt
  -- Both are half a unit away, and they are neighbours.
  have heq : c' = c + 1 := by
    have hup : (c' : ℚ) ≤ c + 1 := by linarith
    have hup : c' ≤ c + 1 := by exact_mod_cast hup
    omega
  have heven := h.resolve_left fun hless => by
    have := (abs_lt.mp hless).2
    linarith
  have heven' := h'.resolve_left fun hless => by
    have := (abs_lt.mp hless).1
    linarith
  omega

/-- What is not farther from `c` than `q` is rounded to `c` too. -/
theorem RoundsEven.of_nearer (h : RoundsEven q c) (hle : |q' - c| ≤ |q - c|) : RoundsEven q' c := by
  rcases h with h | ⟨h, heven⟩
  · exact .inl (hle.trans_lt h)
  · rcases (hle.trans h.le).lt_or_eq with hlt | heq
    · exact .inl hlt
    · exact .inr ⟨heq, heven⟩

/-- No integer is nearer. -/
theorem RoundsEven.nearest (h : RoundsEven q c) (k : ℤ) : |q - c| ≤ |q - k| := by
  rcases eq_or_ne (c : ℤ) k with rfl | hne
  · simp
  · have hone : (1 : ℚ) ≤ |(c : ℚ) - k| := by
      have habs : 1 ≤ |(c : ℤ) - k| := Int.one_le_abs (sub_ne_zero.mpr hne)
      have hcast : ((1 : ℤ) : ℚ) ≤ ((|(c : ℤ) - k| : ℤ) : ℚ) := by exact_mod_cast habs
      simpa using hcast
    have htriangle := abs_sub_le (c : ℚ) q k
    rw [abs_sub_comm (c : ℚ) q] at htriangle
    linarith [h.le_half]

theorem roundsEven_natCast (c : ℕ) : RoundsEven (c : ℚ) c := .inl (by simp)

theorem roundsEven_roundQuotient (num : ℕ) {den : ℕ} (hden : 0 < den) :
    RoundsEven ((num : ℚ) / den) (roundQuotient num den) := by
  have hpos : (0 : ℚ) < den := by exact_mod_cast hden
  have hsplit : (num : ℚ) / den = (num / den : ℕ) + (num % den : ℕ) / den := by
    rw [div_eq_iff hpos.ne', add_mul, div_mul_cancel₀ _ hpos.ne']
    exact_mod_cast (Nat.div_add_mod' num den).symm
  have hrest : ((num % den : ℕ) : ℚ) / den < 1 := by
    rw [div_lt_one hpos]
    exact_mod_cast Nat.mod_lt num hden
  have hnonneg : 0 ≤ ((num % den : ℕ) : ℚ) / den := by positivity
  unfold roundQuotient
  dsimp only
  rw [hsplit]
  generalize num / den = d at *
  split
  · rename_i hless
    have hhalf : ((num % den : ℕ) : ℚ) / den < 1 / 2 := by
      rw [div_lt_div_iff₀ hpos two_pos]
      exact_mod_cast (by omega : num % den * 2 < 1 * den)
    exact .inl (by rw [add_sub_cancel_left, abs_of_nonneg hnonneg]; exact hhalf)
  · split
    · rename_i hmore
      have hhalf : 1 / 2 < ((num % den : ℕ) : ℚ) / den := by
        rw [div_lt_div_iff₀ two_pos hpos]
        exact_mod_cast (by omega : 1 * den < num % den * 2)
      refine .inl ?_
      push_cast
      rw [abs_lt]
      constructor <;> linarith
    · have hhalf : ((num % den : ℕ) : ℚ) / den = 1 / 2 := by
        rw [div_eq_div_iff hpos.ne' two_ne_zero]
        exact_mod_cast (by omega : num % den * 2 = 1 * den)
      refine .inr ⟨?_, by omega⟩
      rw [hhalf]
      rcases Nat.mod_two_eq_zero_or_one d with hd | hd
      · rw [hd, Nat.add_zero, add_sub_cancel_left, abs_of_pos (by norm_num)]
      · rw [hd]
        push_cast
        rw [show (d : ℚ) + 1 / 2 - (d + 1) = -(1 / 2) by ring, abs_neg, abs_of_pos (by norm_num)]

end RoundsEven

/-! ### Bits -/

/-- The unit of doubles, the least one that is positive. -/
def unit : ℚ := 2 ^ (-1074 : ℤ)

theorem unit_pos : 0 < unit := by unfold unit; positivity

/-- The units of the double with the given bits below the sign. -/
def bitsUnits (bits : ℕ) : ℕ :=
  if bits / 2 ^ 52 % 2 ^ 11 = 0 then bits % 2 ^ 52 else (2 ^ 52 + bits % 2 ^ 52) * 2 ^ (bits / 2 ^ 52 % 2 ^ 11 - 1)

theorem units_eq (x : Float) : units x = bitsUnits x.toBits.toNat := rfl

theorem toNat_unpackMantissa (b : BitVec 64) :
    (@unpackMantissa Format.binary64 b : BitVec 52).toNat = b.toNat % 2 ^ 52 := by
  show (BitVec.cast _ (BitVec.extractLsb 51 0 b)).toNat = _
  simp [BitVec.extractLsb_toNat]

theorem toNat_unpackExponent (b : BitVec 64) :
    (@unpackExponent Format.binary64 b : BitVec 11).toNat = b.toNat / 2 ^ 52 % 2 ^ 11 := by
  show (BitVec.cast _ (BitVec.extractLsb 62 52 b)).toNat = _
  simp [BitVec.extractLsb_toNat, Nat.shiftRight_eq_div_pow]

theorem ofBitVec_unpackSign (b : BitVec 64) :
    Sign.ofBitVec (@unpackSign Format.binary64 b) = if 2 ^ 63 ≤ b.toNat then .negative else .positive := by
  have hlt : b.toNat < 2 ^ 64 := b.isLt
  have hbit : (@unpackSign Format.binary64 b).toNat = b.toNat / 2 ^ 63 % 2 := by
    show (BitVec.cast _ (BitVec.extractLsb 63 63 b)).toNat = _
    simp [BitVec.extractLsb_toNat, Nat.shiftRight_eq_div_pow]
  unfold Sign.ofBitVec
  by_cases hnegative : 2 ^ 63 ≤ b.toNat
  · rw [if_pos hnegative, if_neg]
    intro hzero
    rw [hzero] at hbit
    have hbit : 0 = b.toNat / 2 ^ 63 % 2 := hbit
    omega
  · rw [if_neg hnegative, if_pos]
    refine BitVec.eq_of_toNat_eq ?_
    rw [hbit]
    show b.toNat / 2 ^ 63 % 2 = 0
    omega

theorem unpackedValue_ite (p : Prop) [Decidable p] (m : ℕ) (e : ℤ) (hm : 0 < m) :
    unpackedValue (.finite (if p then .negative else .positive) m e hm) = (if p then -1 else 1) * (m * 2 ^ e) := by
  split
  · rw [unpackedValue_negative, neg_one_mul]
  · rw [unpackedValue_positive, one_mul]

/-- What the bits of a finite double are unpacked to. -/
theorem unpack_bits (b : BitVec 64) :
    ((unpack Format.binary64 b).isFinite = true ↔ b.toNat / 2 ^ 52 % 2 ^ 11 ≠ 2047) ∧
      (b.toNat / 2 ^ 52 % 2 ^ 11 ≠ 2047 → unpackedValue (unpack Format.binary64 b) =
        (if 2 ^ 63 ≤ b.toNat then -1 else 1) * (bitsUnits b.toNat * unit)) := by
  have hmantissa := toNat_unpackMantissa b
  have hexponent := toNat_unpackExponent b
  unfold unpack bitsUnits
  dsimp only
  rw [ofBitVec_unpackSign]
  split
  · rename_i hlast
    have hlast : b.toNat / 2 ^ 52 % 2 ^ 11 = 2047 := hexponent ▸ congrArg BitVec.toNat hlast
    refine ⟨?_, fun h => absurd hlast h⟩
    split <;> exact iff_of_false Bool.false_ne_true fun h => h hlast
  · rename_i hlast
    have hlast : b.toNat / 2 ^ 52 % 2 ^ 11 ≠ 2047 := fun h => hlast (BitVec.eq_of_toNat_eq (hexponent.trans h))
    split
    · rename_i hzero
      have hzero : b.toNat / 2 ^ 52 % 2 ^ 11 = 0 := hexponent ▸ congrArg BitVec.toNat hzero
      rw [if_pos hzero]
      split
      · rename_i hnone
        have hnone : b.toNat % 2 ^ 52 = 0 := hmantissa ▸ congrArg BitVec.toNat hnone
        refine ⟨iff_of_true rfl hlast, fun _ => ?_⟩
        rw [hnone]
        simp
      · refine ⟨iff_of_true rfl hlast, fun _ => ?_⟩
        rw [unpackedValue_ite, hmantissa, hexponent, hzero]
        rfl
    · rename_i hzero
      have hzero : b.toNat / 2 ^ 52 % 2 ^ 11 ≠ 0 := fun h => hzero (BitVec.eq_of_toNat_eq (hexponent.trans h))
      rw [if_neg hzero]
      refine ⟨iff_of_true rfl hlast, fun _ => ?_⟩
      rw [unpackedValue_ite, toNat_one_append, hmantissa, hexponent]
      congr 1
      have hexp : ((b.toNat / 2 ^ 52 % 2 ^ 11 : ℕ) : ℤ) - (1023 + 52) =
          ((b.toNat / 2 ^ 52 % 2 ^ 11 - 1 : ℕ) : ℤ) + -1074 := by omega
      show ((2 ^ 52 + b.toNat % 2 ^ 52 : ℕ) : ℚ) * 2 ^ (((b.toNat / 2 ^ 52 % 2 ^ 11 : ℕ) : ℤ) - (1023 + 52)) = _
      rw [hexp, zpow_add₀ two_ne_zero, zpow_natCast]
      change _ * (_ * unit) = _ * unit
      push_cast
      ring

/-- A finite double is its units, with its sign. -/
theorem value_eq_units {x : Float} (hx : x.isFinite = true) :
    value x = (if isNegative x then -1 else 1) * (units x * unit) := by
  obtain ⟨hfinite, hvalue⟩ := unpack_bits x.toModel.toBits.toBitVec
  rw [units_eq]
  unfold isNegative
  simp only [decide_eq_true_eq]
  exact hvalue (hfinite.mp hx)

theorem abs_value {x : Float} (hx : x.isFinite = true) : |value x| = units x * unit := by
  have hnonneg : 0 ≤ units x * unit := mul_nonneg (Nat.cast_nonneg _) unit_pos.le
  rw [value_eq_units hx]
  split
  · rw [neg_one_mul, abs_neg, abs_of_nonneg hnonneg]
  · rw [one_mul, abs_of_nonneg hnonneg]

/-- A positive double is at least one unit. -/
theorem unit_le_abs {x : Float} (hx : x.isFinite = true) (hne : value x ≠ 0) : unit ≤ |value x| := by
  have habs := abs_value hx
  have hpos : 0 < units x := by
    refine Nat.pos_of_ne_zero fun hzero => hne ?_
    rw [hzero, Nat.cast_zero, zero_mul] at habs
    exact abs_eq_zero.mp habs
  have hone : (1 : ℚ) ≤ units x := by exact_mod_cast hpos
  rw [habs]
  exact le_mul_of_one_le_left unit_pos.le hone

theorem unpack_ofBits (b : UInt64) : (Float.ofBits b).toModel.unpack = unpack Format.binary64 b.toBitVec := by
  obtain ⟨hcanonical, hbounded⟩ := isCanonical_unpack b.toBitVec
  exact unpack_pack hcanonical hbounded

/-- The double of bits below those of infinity. -/
theorem withSign_spec (negative : Bool) {bits : ℕ} (h : bits < infinityBits) :
    (withSign negative bits).isFinite = true ∧
      value (withSign negative bits) = (if negative then -1 else 1) * (bitsUnits bits * unit) := by
  have hlt : bits < 2047 * 2 ^ 52 := h
  have hword : (UInt64.ofNat (if negative then 2 ^ 63 + bits else bits)).toBitVec.toNat =
      if negative then 2 ^ 63 + bits else bits := by
    refine Nat.mod_eq_of_lt ?_
    split <;> omega
  obtain ⟨hfinite, hvalue⟩ := unpack_bits (UInt64.ofNat (if negative then 2 ^ 63 + bits else bits)).toBitVec
  rw [hword] at hfinite hvalue
  have hexponent : (if negative then 2 ^ 63 + bits else bits) / 2 ^ 52 % 2 ^ 11 ≠ 2047 := by split <;> omega
  have hunits : bitsUnits (if negative then 2 ^ 63 + bits else bits) = bitsUnits bits := by
    split
    · have hhigh : (2 ^ 63 + bits) / 2 ^ 52 % 2 ^ 11 = bits / 2 ^ 52 % 2 ^ 11 := by omega
      have hlow : (2 ^ 63 + bits) % 2 ^ 52 = bits % 2 ^ 52 := by omega
      rw [bitsUnits, bitsUnits, hhigh, hlow]
    · rfl
  have hsign : 2 ^ 63 ≤ (if negative then 2 ^ 63 + bits else bits) ↔ negative = true := by
    cases negative with
    | true => simp
    | false => simp only [Bool.false_eq_true, if_false, iff_false]; omega
  rw [isFinite_iff, value, withSign, unpack_ofBits]
  refine ⟨hfinite.mpr hexponent, ?_⟩
  rw [hvalue hexponent, hunits]
  simp only [hsign]

theorem not_isFinite_infinityBits (negative : Bool) : (withSign negative infinityBits).isFinite = false := by
  cases negative <;> decide +kernel

/-- The units of a double are a mantissa of 53 bits and zeros behind it. -/
theorem exists_units (bits : ℕ) : ∃ m f, m < 2 ^ 53 ∧ bitsUnits bits = m * 2 ^ f := by
  have hlt : bits % 2 ^ 52 < 2 ^ 52 := Nat.mod_lt _ (by decide)
  unfold bitsUnits
  split
  · exact ⟨bits % 2 ^ 52, 0, by omega, by simp⟩
  · exact ⟨2 ^ 52 + bits % 2 ^ 52, _, by omega, rfl⟩

/-- A mantissa that has been carried into one bit more steps into the exponent. -/
theorem bitsUnits_carry {e k : ℕ} (hk : k ≤ 2 ^ 53) (he : e = 0 ∨ 2 ^ 52 ≤ k) (h : e * 2 ^ 52 + k < infinityBits) :
    bitsUnits (e * 2 ^ 52 + k) = k * 2 ^ e := by
  have hlt : e * 2 ^ 52 + k < 2047 * 2 ^ 52 := h
  unfold bitsUnits
  by_cases hsmall : k < 2 ^ 52
  · obtain rfl := he.resolve_right (Nat.not_le.mpr hsmall)
    rw [if_pos (by omega)]
    omega
  · by_cases hcarry : k = 2 ^ 53
    · have hexponent : (e * 2 ^ 52 + k) / 2 ^ 52 % 2 ^ 11 = e + 2 := by omega
      have hfraction : (e * 2 ^ 52 + k) % 2 ^ 52 = 0 := by omega
      rw [hexponent, hfraction, if_neg (Nat.succ_ne_zero _), hcarry, show e + 2 - 1 = e + 1 by omega, pow_succ]
      ring
    · have hexponent : (e * 2 ^ 52 + k) / 2 ^ 52 % 2 ^ 11 = e + 1 := by omega
      have hfraction : (e * 2 ^ 52 + k) % 2 ^ 52 = k - 2 ^ 52 := by omega
      rw [hexponent, hfraction, if_neg (Nat.succ_ne_zero _), Nat.add_sub_cancel,
        show 2 ^ 52 + (k - 2 ^ 52) = k by omega]

/-! ### Nearest bits -/

/-- The bits nearest to a quotient: a mantissa that the quotient is rounded to, with an exponent. -/
theorem nearestBits_spec (num : ℕ) {den : ℕ} (hden : 0 < den) : ∃ e k,
    nearestBits num den = min infinityBits (e * 2 ^ 52 + k) ∧ RoundsEven ((num : ℚ) / den / 2 ^ e) k ∧ k ≤ 2 ^ 53 ∧
      (e = 0 ∨ 2 ^ 52 ≤ k ∧ 2 ^ 52 * 2 ^ e ≤ (num : ℚ) / den) ∧ e = (num / den).log2 - 52 := by
  have hpos : (0 : ℚ) < den := by exact_mod_cast hden
  have hrounds : RoundsEven ((num : ℚ) / den / 2 ^ ((num / den).log2 - 52))
      (roundQuotient num (den * 2 ^ ((num / den).log2 - 52))) := by
    have h := roundsEven_roundQuotient num (Nat.mul_pos hden (Nat.two_pow_pos ((num / den).log2 - 52)))
    rwa [Nat.cast_mul, Nat.cast_pow, Nat.cast_ofNat, ← div_div] at h
  -- The whole part of the quotient is below the power of two behind its first bit.
  have hbelow : (num : ℚ) / den < 2 ^ 53 * 2 ^ ((num / den).log2 - 52) := by
    have hnat : num / den < 2 ^ 53 * 2 ^ ((num / den).log2 - 52) := by
      refine Nat.lt_log2_self.trans_le ?_
      rw [← pow_add]
      exact Nat.pow_le_pow_right two_pos (by omega)
    rw [div_lt_iff₀ hpos]
    exact_mod_cast (Nat.div_lt_iff_lt_mul hden).mp hnat
  have hk : roundQuotient num (den * 2 ^ ((num / den).log2 - 52)) ≤ 2 ^ 53 := by
    have hle := (abs_le.mp hrounds.le_half).1
    have hscaled : (num : ℚ) / den / 2 ^ ((num / den).log2 - 52) < 2 ^ 53 := by
      rwa [div_lt_iff₀ (by positivity)]
    have hlt : (roundQuotient num (den * 2 ^ ((num / den).log2 - 52)) : ℚ) < (2 ^ 53 : ℕ) + 1 := by
      push_cast
      linarith
    exact Nat.lt_succ_iff.mp (by exact_mod_cast hlt)
  refine ⟨_, _, rfl, hrounds, hk, ?_, rfl⟩
  by_cases hlog : (num / den).log2 ≤ 52
  · exact .inl (by omega)
  · have hne : num / den ≠ 0 := by
      rintro hzero
      rw [hzero] at hlog
      exact hlog (by rw [Nat.log2_zero]; exact Nat.zero_le 52)
    have habove : (2 : ℚ) ^ 52 * 2 ^ ((num / den).log2 - 52) ≤ num / den := by
      have hnat : 2 ^ 52 * 2 ^ ((num / den).log2 - 52) ≤ num / den := by
        rw [← pow_add]
        exact (Nat.pow_le_pow_right two_pos (by omega)).trans (Nat.log2_self_le hne)
      rw [le_div_iff₀ hpos]
      exact_mod_cast (Nat.le_div_iff_mul_le hden).mp hnat
    have hscaled : (2 : ℚ) ^ 52 ≤ num / den / 2 ^ ((num / den).log2 - 52) := by
      rwa [le_div_iff₀ (by positivity)]
    have hle := (abs_le.mp hrounds.le_half).2
    have hgt : ((2 ^ 52 : ℕ) : ℚ) < roundQuotient num (den * 2 ^ ((num / den).log2 - 52)) + 1 := by
      push_cast
      linarith
    exact .inr ⟨Nat.lt_succ_iff.mp (by exact_mod_cast hgt), habove⟩

/-- The units of the nearest bits of a quotient below infinity: its mantissa and its exponent. -/
theorem bitsUnits_nearestBits_eq {num den : ℕ} (hden : 0 < den) (h : nearestBits num den < infinityBits) : ∃ e k,
    bitsUnits (nearestBits num den) = k * 2 ^ e ∧ RoundsEven ((num : ℚ) / den / 2 ^ e) k ∧
      (e = 0 ∨ 2 ^ 52 ≤ k ∧ 2 ^ 52 * 2 ^ e ≤ (num : ℚ) / den) ∧ e = (num / den).log2 - 52 := by
  obtain ⟨e, k, hbits, hrounds, hk, hfull, he⟩ := nearestBits_spec num hden
  have hlt : e * 2 ^ 52 + k < infinityBits := by
    rw [hbits] at h
    omega
  refine ⟨e, k, ?_, hrounds, hfull, he⟩
  rw [hbits, Nat.min_eq_right hlt.le, bitsUnits_carry hk (hfull.imp_right And.left) hlt]

/-- How far a number is from a multiple of a power of two. -/
theorem abs_mul_two_pow_sub (c q : ℚ) (e : ℕ) : |c * 2 ^ e - q| = |q / 2 ^ e - c| * 2 ^ e := by
  have hpow : (0 : ℚ) < 2 ^ e := by positivity
  rw [abs_sub_comm, ← abs_of_pos hpow, ← abs_mul, abs_of_pos hpow, sub_mul, div_mul_cancel₀ _ hpow.ne']

/-- No double is nearer to a quotient than the one of its nearest bits. -/
theorem nearestBits_nearest {num den : ℕ} (hden : 0 < den) (h : nearestBits num den < infinityBits) (bits : ℕ) :
    |(bitsUnits (nearestBits num den) : ℚ) - num / den| ≤ |(bitsUnits bits : ℚ) - num / den| := by
  obtain ⟨e, k, hbits, hrounds, hfull, -⟩ := bitsUnits_nearestBits_eq hden h
  have hpow : (0 : ℚ) < 2 ^ e := by positivity
  have hnearest (c : ℤ) : |((k * 2 ^ e : ℕ) : ℚ) - num / den| ≤ |(c : ℚ) * 2 ^ e - num / den| := by
    rw [Nat.cast_mul, Nat.cast_pow, Nat.cast_ofNat, abs_mul_two_pow_sub, abs_mul_two_pow_sub]
    exact mul_le_mul_of_nonneg_right (hrounds.nearest c) hpow.le
  rw [hbits]
  obtain ⟨m, f, hm, hunits⟩ := exists_units bits
  rw [hunits]
  by_cases hef : e ≤ f
  · have hmultiple : ((m * 2 ^ f : ℕ) : ℚ) = ((m * 2 ^ (f - e) : ℕ) : ℤ) * 2 ^ e := by
      push_cast
      rw [mul_assoc, ← pow_add, Nat.sub_add_cancel hef]
    rw [hmultiple]
    exact hnearest _
  · -- A finer double is below the least one with this exponent, which is not above the quotient.
    obtain ⟨-, habove⟩ := hfull.resolve_left (by omega)
    have hbelow : ((m * 2 ^ f : ℕ) : ℚ) ≤ 2 ^ 52 * 2 ^ e := by
      have hnat : m * 2 ^ f ≤ 2 ^ 52 * 2 ^ e := by
        have hstep : 2 ^ f * 2 ≤ 2 ^ e := by
          rw [← pow_succ]
          exact Nat.pow_le_pow_right two_pos (by omega)
        calc m * 2 ^ f ≤ 2 ^ 53 * 2 ^ f := Nat.mul_le_mul_right _ hm.le
          _ = 2 ^ 52 * (2 ^ f * 2) := by ring
          _ ≤ 2 ^ 52 * 2 ^ e := Nat.mul_le_mul_left _ hstep
      exact_mod_cast hnat
    have hleast := hnearest (2 ^ 52)
    rw [Int.cast_pow, Int.cast_ofNat, abs_of_nonpos (sub_nonpos.mpr habove)] at hleast
    rw [abs_of_nonpos (sub_nonpos.mpr (hbelow.trans habove))]
    linarith

/-- How far the nearest bits are from the quotient. -/
theorem nearestBits_error {num den : ℕ} (hden : 0 < den) (h : nearestBits num den < infinityBits) :
    |(bitsUnits (nearestBits num den) : ℚ) - num / den| ≤ num / den / 2 ^ 53 + 1 / 2 := by
  obtain ⟨e, k, hbits, hrounds, hfull, -⟩ := bitsUnits_nearestBits_eq hden h
  have hpow : (0 : ℚ) < 2 ^ e := by positivity
  have hnonneg : (0 : ℚ) ≤ num / den := by positivity
  have herror : |((k * 2 ^ e : ℕ) : ℚ) - num / den| ≤ 1 / 2 * 2 ^ e := by
    rw [Nat.cast_mul, Nat.cast_pow, Nat.cast_ofNat, abs_mul_two_pow_sub]
    exact mul_le_mul_of_nonneg_right hrounds.le_half hpow.le
  rw [hbits]
  refine herror.trans ?_
  rcases hfull with rfl | ⟨-, habove⟩
  · rw [pow_zero]
    linarith [div_nonneg hnonneg (by positivity : (0 : ℚ) ≤ 2 ^ 53)]
  · rw [← sub_le_iff_le_add, le_div_iff₀ (by positivity)]
    linarith

/-- A number with as many zeros at its end as the exponent asks is exactly the units of its nearest bits. -/
theorem bitsUnits_nearestBits {n e : ℕ} (hlog : n.log2 ≤ 52 + e) (hzeros : 2 ^ e ∣ n)
    (h : nearestBits n 1 < infinityBits) :
    bitsUnits (nearestBits n 1) = n := by
  obtain ⟨e', k, hbits, hrounds, -, he'⟩ := bitsUnits_nearestBits_eq Nat.one_pos h
  rw [hbits]
  rw [Nat.div_one] at he'
  obtain ⟨c, rfl⟩ : 2 ^ e' ∣ n := (pow_dvd_pow 2 (by omega)).trans hzeros
  have hquotient : ((2 ^ e' * c : ℕ) : ℚ) / (1 : ℕ) / 2 ^ e' = c := by
    push_cast
    field_simp
  rw [hquotient] at hrounds
  rw [hrounds.unique (roundsEven_natCast c), Nat.mul_comm]

/-! ### Nearest doubles -/

theorem one_pos : 0 < one := by
  unfold one
  generalize 1074 = k
  exact Nat.pow_pos Nat.two_pos

theorem one_mul_unit : (one : ℚ) * unit = 1 := by
  unfold one unit
  rw [zpow_neg, show (1074 : ℤ) = (1074 : ℕ) from rfl]
  generalize (1074 : ℕ) = n
  rw [zpow_natCast, Nat.cast_pow, Nat.cast_ofNat]
  exact mul_inv_cancel₀ (pow_ne_zero n two_ne_zero)

theorem natCast_mul_unit (n : ℕ) : (n : ℚ) * unit = n / one := by
  have hone : (one : ℚ) ≠ 0 := by exact_mod_cast one_pos.ne'
  rw [eq_div_iff hone, mul_right_comm, mul_assoc, one_mul_unit, mul_one]

theorem nearestBits_lt_of_isFinite {num den : ℕ} {negative : Bool}
    (h : (withSign negative (nearestBits num den)).isFinite = true) : nearestBits num den < infinityBits := by
  refine lt_of_le_of_ne (Nat.min_le_left _ _) fun heq => ?_
  rw [heq, not_isFinite_infinityBits] at h
  cases h

/-- Equal quotients have the same double. -/
theorem ofRatio_congr {num den num' den' : ℕ} (hden : 0 < den) (hden' : 0 < den') (h : (num : ℚ) / den = num' / den')
    (negative : Bool) : ofRatio negative num den = ofRatio negative num' den' := by
  have hscaled : ((num * one : ℕ) : ℚ) / den = (num' * one : ℕ) / den' := by
    rw [Nat.cast_mul, Nat.cast_mul, mul_div_right_comm, mul_div_right_comm, h]
  unfold ofRatio
  revert hscaled
  generalize num * one = n
  generalize num' * one = n'
  intro hscaled
  have hfloor : n / den = n' / den' := by
    rw [← Nat.floor_div_eq_div (K := ℚ), ← Nat.floor_div_eq_div (K := ℚ), hscaled]
  have hrounds := roundsEven_roundQuotient n (Nat.mul_pos hden (Nat.two_pow_pos ((n / den).log2 - 52)))
  have hrounds' := roundsEven_roundQuotient n' (Nat.mul_pos hden' (Nat.two_pow_pos ((n / den).log2 - 52)))
  rw [Nat.cast_mul, ← div_div] at hrounds hrounds'
  rw [hscaled] at hrounds
  unfold nearestBits
  dsimp only
  rw [← hfloor, hrounds.unique hrounds']

theorem isNaN_ofRatio (negative : Bool) (num den : ℕ) : (ofRatio negative num den).isNaN = false := by
  have hle : nearestBits (num * one) den ≤ infinityBits := Nat.min_le_left _ _
  unfold ofRatio
  rcases hle.lt_or_eq with hlt | heq
  · exact isNaN_of_isFinite (withSign_spec negative hlt).1
  · rw [heq]
    cases negative <;> decide +kernel

section OfRatio
variable {num den : ℕ} {y : Float}

theorem two_pow_lt_overflow : (2 : ℚ) ^ 64 < overflow := by
  have hpower : (2 : ℚ) ^ (11 : ℤ) ≤ 2 ^ (970 : ℤ) := zpow_le_zpow_right₀ one_le_two (by decide)
  calc (2 : ℚ) ^ 64 < (2 ^ 54 - 1) * 2 ^ (11 : ℤ) := by norm_num
    _ ≤ overflow := mul_le_mul_of_nonneg_left hpower (by norm_num)

/-- Below the least magnitude that is rounded to infinity the nearest bits are those of a finite double. -/
theorem nearestBits_lt (hden : 0 < den) (h : (num : ℚ) / den < overflow) : nearestBits (num * one) den < infinityBits := by
  obtain ⟨e, k, hbits, hrounds, hk, hfull, -⟩ := nearestBits_spec (num * one) hden
  have hmax : infinityBits = 2047 * 2 ^ 52 := rfl
  by_contra hge
  obtain ⟨n, hn⟩ : ∃ n, 2045 = n := ⟨_, rfl⟩
  have hle : 2 ^ 53 - 1 / 2 ≤ ((num * one : ℕ) : ℚ) / den / 2 ^ n := by
    obtain ⟨hlarge, habove⟩ := hfull.resolve_left (by omega)
    by_cases he : e = n
    · obtain rfl : k = 2 ^ 53 := by omega
      have hhalf := (abs_le.mp hrounds.le_half).1
      rw [he] at hhalf
      push_cast at hhalf ⊢
      linarith
    · have hpower : (2 : ℚ) ^ (n + 1) ≤ 2 ^ e := pow_le_pow_right₀ one_le_two (by omega)
      have hpos : (0 : ℚ) < 2 ^ n := by positivity
      rw [le_div_iff₀ hpos]
      rw [pow_succ] at hpower
      linarith
  have hscale : (2 : ℚ) ^ (971 : ℤ) = unit * 2 ^ n := by
    rw [unit, ← zpow_natCast, ← zpow_add₀ two_ne_zero, ← hn]
    rfl
  have hvalue : ((num * one : ℕ) : ℚ) / den / 2 ^ n * 2 ^ (971 : ℤ) = num / den := by
    rw [hscale, mul_comm unit, ← mul_assoc, div_mul_cancel₀ _ (by positivity), Nat.cast_mul, mul_div_right_comm, mul_assoc,
      one_mul_unit, mul_one]
  have hoverflow : overflow = (2 ^ 53 - 1 / 2) * 2 ^ (971 : ℤ) := by
    rw [overflow, show (971 : ℤ) = 970 + 1 from rfl, zpow_add_one₀ two_ne_zero]
    ring
  rw [← hvalue, hoverflow] at h
  exact absurd (mul_le_mul_of_nonneg_right hle (by positivity)) (not_le.mpr h)

/-- No double is nearer to a quotient than the one made of it. -/
theorem ofRatio_nearest (hden : 0 < den) (h : (ofRatio false num den).isFinite = true) (hy : y.isFinite = true) :
    0 ≤ value (ofRatio false num den) ∧ |value (ofRatio false num den) - num / den| ≤ |value y - num / den| := by
  have hlt := nearestBits_lt_of_isFinite h
  have hvalue : value (ofRatio false num den) = _ := (withSign_spec false hlt).2
  rw [if_neg Bool.false_ne_true, one_mul] at hvalue
  have hratio : (num : ℚ) / den = (num * one : ℕ) / den * unit := by
    rw [Nat.cast_mul, mul_div_right_comm, mul_assoc, one_mul_unit, mul_one]
  have hnearest := nearestBits_nearest hden hlt y.toBits.toNat
  rw [← units_eq] at hnearest
  have hscale (u : ℚ) : |u * unit - num / den| = |u - (num * one : ℕ) / den| * unit := by
    rw [hratio, ← sub_mul, abs_mul, abs_of_pos unit_pos]
  have hle : |value (ofRatio false num den) - num / den| ≤ |(|value y|) - num / den| := by
    rw [hvalue, abs_value hy, hscale, hscale]
    exact mul_le_mul_of_nonneg_right hnearest unit_pos.le
  refine ⟨by rw [hvalue]; exact mul_nonneg (Nat.cast_nonneg _) unit_pos.le, hle.trans ?_⟩
  -- The quotient is not negative, so a negative double is farther from it than its opposite.
  rcases le_total 0 (value y) with hnonneg | hneg
  · rw [abs_of_nonneg hnonneg]
  · have hq : (0 : ℚ) ≤ num / den := by positivity
    rw [abs_of_nonpos hneg, abs_of_nonpos (by linarith : value y - num / den ≤ 0), abs_le]
    constructor <;> linarith

theorem ofRatio_error (hden : 0 < den) (h : (ofRatio false num den).isFinite = true) :
    |value (ofRatio false num den) - num / den| ≤ num / den / 2 ^ 53 + 1 / 2 * unit := by
  have hlt := nearestBits_lt_of_isFinite h
  have hvalue : value (ofRatio false num den) = _ := (withSign_spec false hlt).2
  rw [if_neg Bool.false_ne_true, one_mul] at hvalue
  have hratio : (num : ℚ) / den = (num * one : ℕ) / den * unit := by
    rw [Nat.cast_mul, mul_div_right_comm, mul_assoc, one_mul_unit, mul_one]
  have herror := mul_le_mul_of_nonneg_right (nearestBits_error hden hlt) unit_pos.le
  have hscale : |value (ofRatio false num den) - num / den| =
      |(bitsUnits (nearestBits (num * one) den) : ℚ) - (num * one : ℕ) / den| * unit := by
    rw [hvalue, hratio, ← sub_mul, abs_mul, abs_of_pos unit_pos]
  rw [hscale]
  refine herror.trans (le_of_eq ?_)
  rw [hratio]
  ring

end OfRatio

end Worksheet.Binary
