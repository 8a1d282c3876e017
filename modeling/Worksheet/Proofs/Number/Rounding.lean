import Mathlib
import Worksheet.Proofs.Number.Value

/-! Rounding to the nearest double. A mantissa that is cut to 53 bits keeps two more bits, which tell on which side of
    the middle the rest lies; so what is rounded is a nearest whole number of units, and no double is on the other side
    of it. Sums, differences, products and quotients of unpacked numbers are rounded this way. -/

namespace Worksheet.Binary
open Float.Model (UnpackedFloat Format)
open Float.Model.UnpackedFloat

/-- What a mark of accuracy says about a fraction below 1. -/
def Measures (q : ℚ) : Accuracy → Prop
  | .exact => q = 0
  | .inexact .lt => 0 < q ∧ q < 1 / 2
  | .inexact .eq => q = 1 / 2
  | .inexact .gt => 1 / 2 < q ∧ q < 1

theorem Measures.bounds {q : ℚ} {acc : Accuracy} (h : Measures q acc) : 0 ≤ q ∧ q < 1 := by
  match acc, h with
  | .exact, h =>
    have h : q = 0 := h
    exact ⟨by linarith, by linarith⟩
  | .inexact .lt, ⟨h, h'⟩ => exact ⟨h.le, by linarith⟩
  | .inexact .eq, h =>
    have h : q = 1 / 2 := h
    exact ⟨by linarith, by linarith⟩
  | .inexact .gt, ⟨h, h'⟩ => exact ⟨by linarith, h'⟩

/-- A mantissa with its two bits tells where `q` lies from one whole number to the next. -/
def Describes (em : ExtendedMantissa) (q : ℚ) : Prop := Measures (q - em.mantissa) em.accuracy

/-- The whole number `n` is nearest to `q`; of two that are equally near, the even one. -/
structure Nearest (n : ℕ) (q : ℚ) : Prop where
  near : |(n : ℚ) - q| ≤ 1 / 2
  le_of_le : ∀ k : ℕ, (k : ℚ) ≤ q → k ≤ n
  ge_of_ge : ∀ k : ℕ, q ≤ k → n ≤ k
  even_le : ∀ k : ℕ, k % 2 = 0 → (k : ℚ) - 1 / 2 ≤ q → k ≤ n

section Mantissa
variable {em : ExtendedMantissa} {q : ℚ} {m : ℕ} {acc : Accuracy}

theorem describes_ofMantissaAndAccuracy (h : Measures (q - m) acc) :
    Describes (.ofMantissaAndAccuracy m acc) q := by
  match acc, h with
  | .exact, h => exact h
  | .inexact .lt, h => exact h
  | .inexact .eq, h => exact h
  | .inexact .gt, h => exact h

theorem Describes.shiftRightOne (h : Describes em q) : Describes em.shiftRightOne (q / 2) := by
  obtain ⟨m, round, sticky⟩ := em
  have hhalf : ((m % 2 : ℕ) : ℚ) + 2 * ((m / 2 : ℕ) : ℚ) = m := by exact_mod_cast Nat.mod_add_div m 2
  rcases Nat.mod_two_eq_zero_or_one m with hm | hm <;> rw [hm] at hhalf <;> cases round <;> cases sticky <;>
    simp [Describes, ExtendedMantissa.shiftRightOne, ExtendedMantissa.accuracy, Measures, hm] at h ⊢ <;>
    first | linarith | exact ⟨by linarith, by linarith⟩

theorem Describes.shiftRight (h : Describes em q) (k : ℕ) : Describes (em >>> k) (q / 2 ^ k) := by
  induction k with
  | zero =>
    rw [pow_zero, div_one]
    exact h
  | succ k ih =>
    rw [pow_succ, ← div_div]
    exact ih.shiftRightOne

theorem le_of_cast_lt {k n : ℕ} (h : (k : ℚ) < n + 1) : k ≤ n := Nat.lt_succ_iff.mp (by exact_mod_cast h)

theorem nearest_below (h : (m : ℚ) ≤ q) (h' : q < m + 1 / 2) : Nearest m q where
  near := abs_le.mpr ⟨by linarith, by linarith⟩
  le_of_le _ hk := le_of_cast_lt (by linarith)
  ge_of_ge _ hk := by exact_mod_cast h.trans hk
  even_le _ _ hk := le_of_cast_lt (by linarith)

theorem nearest_above (h : (m : ℚ) + 1 / 2 ≤ q) (h' : q < m + 1) : Nearest (m + 1) q where
  near := abs_le.mpr ⟨by push_cast; linarith, by push_cast; linarith⟩
  le_of_le _ hk := (le_of_cast_lt (by linarith)).trans (Nat.le_succ m)
  ge_of_ge k hk := by
    have hlt : (m : ℚ) < k := by linarith
    exact_mod_cast hlt
  even_le _ _ hk := le_of_cast_lt (by push_cast; linarith)

theorem nearest_tie (h : q = m + 1 / 2) (heven : m % 2 = 0) : Nearest m q where
  near := abs_le.mpr ⟨by linarith, by linarith⟩
  le_of_le _ hk := le_of_cast_lt (by linarith)
  ge_of_ge k hk := by
    have hle : (m : ℚ) ≤ k := by linarith
    exact_mod_cast hle
  even_le k hk hk' := by
    have hle : k ≤ m + 1 := le_of_cast_lt (by push_cast; linarith)
    omega

/-- Rounding a mantissa by its two bits gives the nearest whole number. -/
theorem Describes.nearest (h : Describes em q) : Nearest em.roundedMantissa q := by
  obtain ⟨m, round, sticky⟩ := em
  cases round <;> cases sticky
  · have h : q - m = 0 := h
    show Nearest m q
    exact nearest_below (by linarith) (by linarith)
  · have h : 0 < q - m ∧ q - m < 1 / 2 := h
    show Nearest m q
    exact nearest_below (by linarith) (by linarith)
  · have h : q - m = 1 / 2 := h
    show Nearest (m + m % 2) q
    rcases Nat.mod_two_eq_zero_or_one m with hm | hm <;> rw [hm]
    · exact nearest_tie (m := m) (by linarith) hm
    · exact nearest_above (by linarith) (by linarith)
  · have h : 1 / 2 < q - m ∧ q - m < 1 := h
    exact nearest_above (by linarith) (by linarith)

end Mantissa

/-! ### Exponents -/

/-- The exponent at which a number of the size of `m * 2 ^ e` has its last bit. -/
theorem targetExponent_eq (m : ℕ) (e : ℤ) :
    Format.binary64.targetExponent (Float.Model.totalExponent m e) = max (m.log2 + 1 + e - 53) (-1074) := rfl

/-- What a positive number is rounded to: a multiple of a power of two that leaves 53 bits, or of the least power. -/
structure RoundedAt (q : ℚ) (n : ℕ) (e : ℤ) : Prop where
  nearest : Nearest n (q / 2 ^ e)
  min : -1074 ≤ e
  lt : q / 2 ^ e < 2 ^ 53
  full : 2 ^ 52 ≤ q / 2 ^ e ∨ e = -1074

section Exponents
variable {q : ℚ} {m n : ℕ} {e : ℤ} {acc : Accuracy}

theorem RoundedAt.le (h : RoundedAt q n e) : n ≤ 2 ^ 53 :=
  h.nearest.ge_of_ge (2 ^ 53) (by push_cast; exact h.lt.le)

/-- The first rounding of a mantissa with a mark of accuracy. -/
theorem roundedAt_shiftToTargetExponent (hacc : Measures (q / 2 ^ e - m) acc)
    (he : e ≤ max ((m.log2 : ℤ) + 1 + e - 53) (-1074)) :
    RoundedAt q (shiftToTargetExponent Format.binary64 m e acc).1.roundedMantissa
      (shiftToTargetExponent Format.binary64 m e acc).2 := by
  have hfrac := hacc.bounds
  unfold shiftToTargetExponent shiftToExponent
  dsimp only
  rw [targetExponent_eq]
  generalize hk : (max ((m.log2 : ℤ) + 1 + e - 53) (-1074) - e).toNat = k
  have hshift : q / 2 ^ (e + k) = q / 2 ^ e / 2 ^ k := by
    rw [zpow_add₀ (by norm_num), zpow_natCast, div_div]
  have hnear := ((describes_ofMantissaAndAccuracy hacc).shiftRight k).nearest
  have hpos : (0 : ℚ) < 2 ^ k := by positivity
  refine ⟨hshift ▸ hnear, by omega, ?_, ?_⟩
  · have hlog : m + 1 ≤ 2 ^ (53 + k) :=
      (Nat.lt_log2_self (n := m)).trans_le (Nat.pow_le_pow_right (by decide) (by omega))
    have hlog : (m : ℚ) + 1 ≤ 2 ^ 53 * 2 ^ k := by
      rw [← pow_add]
      exact_mod_cast hlog
    rw [hshift, div_lt_iff₀ hpos]
    linarith
  · by_cases hmin : e + k = -1074
    · exact .inr hmin
    · have hm : m ≠ 0 := by
        rintro rfl
        have : (Nat.log2 0 : ℤ) = 0 := rfl
        omega
      have hlog : 2 ^ (52 + k) ≤ m :=
        (Nat.pow_le_pow_right (by decide) (by omega)).trans (Nat.log2_self_le hm)
      have hlog : (2 : ℚ) ^ 52 * 2 ^ k ≤ m := by
        rw [← pow_add]
        exact_mod_cast hlog
      refine .inl ?_
      rw [hshift, le_div_iff₀ hpos]
      linarith

/-- A mantissa that has at most 53 bits stays as it is. -/
theorem shift_of_lt (hn : n < 2 ^ 53) (he : -1074 ≤ e) :
    shiftToTargetExponent Format.binary64 n e .exact = (⟨n, false, false⟩, e) := by
  have hlog : n.log2 ≤ 52 := by
    rcases Nat.eq_zero_or_pos n with rfl | hpos
    · exact Nat.zero_le _
    · exact Nat.lt_succ_iff.mp ((Nat.log2_lt hpos.ne').mpr hn)
  unfold shiftToTargetExponent shiftToExponent
  dsimp only
  rw [targetExponent_eq, show (max ((n.log2 : ℤ) + 1 + e - 53) (-1074) - e).toNat = 0 by omega]
  exact congrArg (_, ·) (add_zero e)

/-- A mantissa of 54 bits loses its last one. -/
theorem shift_of_eq (he : -1074 ≤ e) :
    shiftToTargetExponent Format.binary64 (2 ^ 53) e .exact = (⟨2 ^ 52, false, false⟩, e + 1) := by
  unfold shiftToTargetExponent shiftToExponent
  dsimp only
  rw [targetExponent_eq, Nat.log2_two_pow, show (max (((53 : ℕ) : ℤ) + 1 + e - 53) (-1074) - e).toNat = 1 by omega]
  rfl

/-- Rounding a mantissa with a mark of accuracy. -/
theorem roundWithAccuracy_cases (s : Sign) (hacc : Measures (q / 2 ^ e - m) acc)
    (he : e ≤ max ((m.log2 : ℤ) + 1 + e - 53) (-1074)) :
    ∃ n e', RoundedAt q n e' ∧ ∃ u, roundWithAccuracy Format.binary64 s m e acc = u ∧
      (n = 0 ∧ u = .zero s ∨ (∃ hn, n < 2 ^ 53 ∧ u = .finite s n e' hn) ∨
        n = 2 ^ 53 ∧ u = .finite s (2 ^ 52) (e' + 1) (by decide)) := by
  have hrounded := roundedAt_shiftToTargetExponent hacc he
  generalize hfirst : shiftToTargetExponent Format.binary64 m e acc = first at hrounded
  refine ⟨_, _, hrounded, _, rfl, ?_⟩
  unfold roundWithAccuracy
  rw [hfirst]
  dsimp only
  generalize first.1.roundedMantissa = n at hrounded ⊢
  rcases hrounded.le.lt_or_eq with hlt | rfl
  · simp only [shift_of_lt hlt hrounded.min]
    by_cases hn : n = 0
    · exact .inl ⟨hn, dif_pos hn⟩
    · exact .inr (.inl ⟨Nat.pos_of_ne_zero hn, hlt, dif_neg hn⟩)
  · rw [shift_of_eq hrounded.min]
    exact .inr (.inr ⟨rfl, rfl⟩)

/-- Units with a greater exponent are more of those with a smaller one. -/
theorem natCast_mul_zpow_add (k j : ℕ) (e : ℤ) : (k : ℚ) * 2 ^ (e + j) = (k * 2 ^ j : ℕ) * 2 ^ e := by
  rw [zpow_add₀ two_ne_zero, zpow_natCast]
  push_cast
  ring

/-- The whole number of units is at most, or at least, any double that is at most, or at least, the rounded number. -/
theorem RoundedAt.le_of_le (h : RoundedAt q n e) {k : ℕ} {f : ℤ} (hk : k < 2 ^ 53) (hf : -1074 ≤ f)
    (hle : (k : ℚ) * 2 ^ f ≤ q) : (k : ℚ) * 2 ^ f ≤ n * 2 ^ e := by
  have hpos : (0 : ℚ) < 2 ^ e := by positivity
  rcases le_or_gt e f with hef | hef
  · obtain ⟨j, rfl⟩ := Int.le.dest hef
    rw [natCast_mul_zpow_add] at hle ⊢
    have hn := h.nearest.le_of_le _ ((le_div_iff₀ hpos).mpr hle)
    gcongr
  · have hfull := h.full.resolve_right (by have := h.min; omega)
    have hn : 2 ^ 52 ≤ n := h.nearest.le_of_le (2 ^ 52) (by push_cast; exact hfull)
    exact ((mantissa_mul_lt hk hn hef).le)

theorem RoundedAt.ge_of_ge (h : RoundedAt q n e) {k : ℕ} {f : ℤ} (hk : k < 2 ^ 53) (hf : -1074 ≤ f)
    (hge : q ≤ (k : ℚ) * 2 ^ f) : (n : ℚ) * 2 ^ e ≤ k * 2 ^ f := by
  have hpos : (0 : ℚ) < 2 ^ e := by positivity
  rcases le_or_gt e f with hef | hef
  · obtain ⟨j, rfl⟩ := Int.le.dest hef
    rw [natCast_mul_zpow_add] at hge ⊢
    have hn := h.nearest.ge_of_ge _ ((div_le_iff₀ hpos).mpr hge)
    gcongr
  · have hfull := h.full.resolve_right (by have := h.min; omega)
    have hlt := mantissa_mul_lt hk (le_refl (2 ^ 52)) hef
    push_cast at hlt
    rw [le_div_iff₀ hpos] at hfull
    linarith

theorem RoundedAt.error (h : RoundedAt q n e) (hq : 0 ≤ q) : |(n : ℚ) * 2 ^ e - q| ≤ q / 2 ^ 53 + 1 / 2 ^ 1075 := by
  have hpos : (0 : ℚ) < 2 ^ e := by positivity
  have hnear : |(n : ℚ) * 2 ^ e - q| ≤ 2 ^ e / 2 := by
    have hunits : (n : ℚ) * 2 ^ e - q = (n - q / 2 ^ e) * 2 ^ e := by field_simp
    rw [hunits, abs_mul, abs_of_pos hpos]
    calc |(n : ℚ) - q / 2 ^ e| * 2 ^ e ≤ 1 / 2 * 2 ^ e := by gcongr; exact h.nearest.near
      _ = 2 ^ e / 2 := by ring
  rcases h.full with hfull | rfl
  · rw [le_div_iff₀ hpos] at hfull
    have hhalf : (2 : ℚ) ^ e / 2 ≤ q / 2 ^ 53 := by linarith
    exact (hnear.trans hhalf).trans (le_add_of_nonneg_right (by positivity))
  · have hhalf : (2 : ℚ) ^ (-1074 : ℤ) / 2 = 1 / 2 ^ 1075 := by
      rw [zpow_neg, pow_succ (2 : ℚ) 1074, one_div, mul_inv]
      rfl
    rw [hhalf] at hnear
    exact hnear.trans (le_add_of_nonneg_left (by positivity))

end Exponents

/-! ### Rounding -/

/-- Magnitudes from here on are rounded to infinity: halfway from the greatest double to the next power of two. -/
def overflow : ℚ := (2 ^ 54 - 1) * 2 ^ (970 : ℤ)

/-- `u` is what `q` is rounded to, with exponents of any size. -/
structure RoundsTo (q : ℚ) (u : UnpackedFloat) : Prop where
  isFinite : u.isFinite = true
  canonical : IsCanonical u
  bounded_iff : IsBounded u ↔ |q| < overflow
  le_of_le : ∀ y, y.isFinite = true → IsCanonical y → unpackedValue y ≤ q → unpackedValue y ≤ unpackedValue u
  ge_of_ge : ∀ y, y.isFinite = true → IsCanonical y → q ≤ unpackedValue y → unpackedValue u ≤ unpackedValue y
  error : |unpackedValue u - q| ≤ |q| / 2 ^ 53 + 1 / 2 ^ 1075

theorem unpackedValue_neg (u : UnpackedFloat) : unpackedValue u.neg = -unpackedValue u := by
  match u with
  | .notANumber | .infinity _ | .zero _ => exact neg_zero.symm
  | .finite .positive m e hm => exact unpackedValue_negative hm
  | .finite .negative m e hm =>
    rw [unpackedValue_negative, neg_neg]
    rfl

theorem RoundsTo.neg {q : ℚ} {u : UnpackedFloat} (h : RoundsTo q u) : RoundsTo (-q) u.neg where
  isFinite := by
    have hfinite := h.isFinite
    cases u <;> exact hfinite
  canonical := by
    have hcanonical := h.canonical
    cases u <;> exact hcanonical
  bounded_iff := by
    have hbounded := h.bounded_iff
    rw [abs_neg]
    cases u <;> exact hbounded
  le_of_le y hy hcanonical hle := by
    have hge := h.ge_of_ge y.neg (by cases y <;> exact hy) (by cases y <;> exact hcanonical)
    rw [unpackedValue_neg] at hge ⊢
    linarith [hge (by linarith)]
  ge_of_ge y hy hcanonical hge := by
    have hle := h.le_of_le y.neg (by cases y <;> exact hy) (by cases y <;> exact hcanonical)
    rw [unpackedValue_neg] at hle ⊢
    linarith [hle (by linarith)]
  error := by
    rw [unpackedValue_neg, abs_neg, ← abs_neg]
    convert h.error using 2
    ring

section
variable {q : ℚ} {m n : ℕ} {e : ℤ} {acc : Accuracy}

/-- A positive number is rounded to a whole number of units. -/
theorem RoundedAt.roundsTo (h : RoundedAt q n e) (hq : 0 ≤ q) {u : UnpackedFloat} (hfinite : u.isFinite = true)
    (hcanonical : IsCanonical u) (hbounded : IsBounded u ↔ |q| < overflow) (hvalue : unpackedValue u = n * 2 ^ e) :
    RoundsTo q u where
  isFinite := hfinite
  canonical := hcanonical
  bounded_iff := hbounded
  le_of_le y hy hcanonical hle := by
    rw [hvalue]
    match y, hy, hcanonical with
    | .zero _, _, _ => rw [unpackedValue_zero]; positivity
    | .finite .positive k f hk, _, ⟨hlt, hmin, _⟩ => exact h.le_of_le hlt hmin hle
    | .finite .negative k f hk, _, _ =>
      rw [unpackedValue_negative]
      have hpos : (0 : ℚ) ≤ k * 2 ^ f := by positivity
      have hpos' : (0 : ℚ) ≤ n * 2 ^ e := by positivity
      linarith
  ge_of_ge y hy hcanonical hge := by
    rw [hvalue]
    match y, hy, hcanonical with
    | .zero _, _, _ =>
      have hzero := h.ge_of_ge (k := 0) (f := 0) (by decide) (by decide) (by simpa using hge)
      simpa using hzero
    | .finite .positive k f hk, _, ⟨hlt, hmin, _⟩ => exact h.ge_of_ge hlt hmin hge
    | .finite .negative k f hk, _, _ =>
      rw [unpackedValue_negative] at hge
      have hpos : (0 : ℚ) < k * 2 ^ f := by positivity
      linarith
  error := by
    rw [hvalue, abs_of_nonneg hq]
    exact h.error hq

/-- A rounded number with a smaller exponent than the last one of doubles. -/
theorem RoundedAt.lt_overflow_of_le (h : RoundedAt q n e) (he : e ≤ 970) : q < overflow := by
  have hlt := h.lt
  rw [div_lt_iff₀ (by positivity)] at hlt
  have hpower : (2 : ℚ) ^ e ≤ 2 ^ (970 : ℤ) := zpow_le_zpow_right₀ one_le_two he
  have hpos : (0 : ℚ) < 2 ^ (970 : ℤ) := by positivity
  rw [overflow]
  generalize (2 : ℚ) ^ e = unit at hlt hpower
  generalize (2 : ℚ) ^ (970 : ℤ) = last at hpower hpos ⊢
  linarith

/-- One with a greater exponent. -/
theorem RoundedAt.overflow_le_of_lt (h : RoundedAt q n e) (he : 971 < e) : overflow ≤ q := by
  have hfull := h.full.resolve_right (by omega)
  rw [le_div_iff₀ (by positivity)] at hfull
  have hpower : (2 : ℚ) ^ (972 : ℤ) ≤ 2 ^ e := zpow_le_zpow_right₀ one_le_two (by omega)
  rw [show (972 : ℤ) = 2 + 970 from rfl, zpow_add₀ two_ne_zero] at hpower
  have hpos : (0 : ℚ) < 2 ^ (970 : ℤ) := by positivity
  rw [overflow]
  generalize (2 : ℚ) ^ e = unit at hfull hpower
  generalize (2 : ℚ) ^ (970 : ℤ) = last at hpower hpos ⊢
  linarith

/-- At the last exponent it depends on whether the mantissa is carried over to the next power of two. -/
theorem RoundedAt.lt_overflow_iff_of_last (h : RoundedAt q n 971) : q < overflow ↔ n < 2 ^ 53 := by
  have hpower : (2 : ℚ) ^ (971 : ℤ) = 2 * 2 ^ (970 : ℤ) := by
    rw [← zpow_one_add₀ two_ne_zero]
    rfl
  have hpos : (0 : ℚ) < 2 ^ (970 : ℤ) := by positivity
  have hunits : q < overflow ↔ q / 2 ^ (971 : ℤ) < 2 ^ 53 - 1 / 2 := by
    rw [div_lt_iff₀ (by positivity), hpower, overflow]
    generalize (2 : ℚ) ^ (970 : ℤ) = last
    rw [show (2 ^ 53 - 1 / 2) * (2 * last) = (2 ^ 54 - 1) * last by ring]
  rw [hunits]
  constructor
  · intro hsmall
    refine h.le.lt_of_ne ?_
    rintro rfl
    have hnear := (abs_le.mp h.nearest.near).2
    rw [Nat.cast_pow, Nat.cast_ofNat] at hnear
    linarith
  · intro hn
    by_contra hlarge
    have hcarried := h.nearest.even_le (2 ^ 53) rfl (by rw [Nat.cast_pow, Nat.cast_ofNat]; exact not_lt.mp hlarge)
    omega

/-- Up to which size a rounded number keeps an exponent that doubles have. -/
theorem RoundedAt.lt_overflow_iff (h : RoundedAt q n e) (hq : 0 ≤ q) :
    |q| < overflow ↔ e ≤ 970 ∨ e = 971 ∧ n < 2 ^ 53 := by
  rw [abs_of_nonneg hq]
  rcases lt_trichotomy e 971 with he | rfl | he
  · exact iff_of_true (h.lt_overflow_of_le (by omega)) (.inl (by omega))
  · rw [h.lt_overflow_iff_of_last]
    omega
  · exact iff_of_false (not_lt.mpr (h.overflow_le_of_lt he)) (by omega)

/-- With the last digit in the first place, or at the least exponent. -/
theorem RoundedAt.isCanonical (h : RoundedAt q n e) (hn : 0 < n) (hlt : n < 2 ^ 53) (s : Sign) :
    IsCanonical (.finite s n e hn) :=
  ⟨hlt, h.min, h.full.imp_left fun hfull => h.nearest.le_of_le (2 ^ 52) (by push_cast; exact hfull)⟩

theorem roundsTo_positive (hq : 0 ≤ q) (hacc : Measures (q / 2 ^ e - m) acc)
    (he : e ≤ max ((m.log2 : ℤ) + 1 + e - 53) (-1074)) :
    RoundsTo q (roundWithAccuracy Format.binary64 .positive m e acc) := by
  obtain ⟨n, e', hrounded, u, rfl, ⟨rfl, hu⟩ | ⟨hn, hlt, hu⟩ | ⟨rfl, hu⟩⟩ := roundWithAccuracy_cases .positive hacc he
  · refine hrounded.roundsTo hq ?_ ?_ ?_ ?_ <;> rw [hu]
    · rfl
    · trivial
    · refine iff_of_true trivial ((hrounded.lt_overflow_iff hq).mpr (.inl ?_))
      rcases hrounded.full with hfull | rfl
      · have := hrounded.nearest.le_of_le (2 ^ 52) (by push_cast; exact hfull)
        omega
      · decide
    · simp
  · refine hrounded.roundsTo hq ?_ ?_ ?_ ?_ <;> rw [hu]
    · rfl
    · exact hrounded.isCanonical hn hlt .positive
    · rw [hrounded.lt_overflow_iff hq]
      show e' ≤ 971 ↔ _
      omega
    · rfl
  · refine hrounded.roundsTo hq ?_ ?_ ?_ ?_ <;> rw [hu]
    · rfl
    · have := hrounded.min
      exact ⟨by decide, by omega, .inl le_rfl⟩
    · rw [hrounded.lt_overflow_iff hq]
      show e' + 1 ≤ 971 ↔ _
      omega
    · rw [unpackedValue_positive, zpow_add_one₀ two_ne_zero]
      push_cast
      ring

/-- The sign of a rounded number has no part in the rounding. -/
theorem roundWithAccuracy_negative (m : ℕ) (e : ℤ) (acc : Accuracy) :
    roundWithAccuracy Format.binary64 .negative m e acc = (roundWithAccuracy Format.binary64 .positive m e acc).neg := by
  unfold roundWithAccuracy
  dsimp only
  split <;> rfl

/-- A number with a sign. -/
def signed : Sign → ℚ → ℚ
  | .positive, q => q
  | .negative, q => -q

theorem signed_mul (s t : Sign) (q r : ℚ) : signed (s * t) (q * r) = signed s q * signed t r := by
  cases s <;> cases t
  · exact (neg_mul_neg q r).symm
  · exact (neg_mul q r).symm
  · exact (mul_neg q r).symm
  · rfl

theorem signed_div (s t : Sign) (q r : ℚ) : signed (s / t) (q / r) = signed s q / signed t r := by
  cases s <;> cases t
  · exact (neg_div_neg_eq q r).symm
  · exact (neg_div r q).symm
  · exact (div_neg q).symm
  · rfl

theorem unpackedValue_finite (s : Sign) (hm : 0 < m) :
    unpackedValue (.finite s m e hm) = signed s (m * 2 ^ e) := by
  cases s with
  | positive => rfl
  | negative => exact unpackedValue_negative hm

/-- Rounding a mantissa with a mark of accuracy, and a sign. -/
theorem roundsTo_roundWithAccuracy (s : Sign) (hq : 0 ≤ q) (hacc : Measures (q / 2 ^ e - m) acc)
    (he : e ≤ max ((m.log2 : ℤ) + 1 + e - 53) (-1074)) :
    RoundsTo (signed s q) (roundWithAccuracy Format.binary64 s m e acc) := by
  cases s with
  | positive => exact roundsTo_positive hq hacc he
  | negative =>
    rw [roundWithAccuracy_negative]
    exact (roundsTo_positive hq hacc he).neg

/-- Rounding a whole number of units. -/
theorem roundsTo_exact (s : Sign) (he : e ≤ max ((m.log2 : ℤ) + 1 + e - 53) (-1074)) :
    RoundsTo (signed s (m * 2 ^ e)) (roundWithAccuracy Format.binary64 s m e .exact) := by
  refine roundsTo_roundWithAccuracy s (by positivity) ?_ he
  show (m : ℚ) * 2 ^ e / 2 ^ e - m = 0
  rw [mul_div_cancel_right₀ _ (by positivity), sub_self]

theorem mul_two_pow_zpow (m k : ℕ) (e : ℤ) : ((m <<< k : ℕ) : ℚ) * 2 ^ (e - k) = m * 2 ^ e := by
  rw [Nat.shiftLeft_eq, zpow_sub₀ two_ne_zero, zpow_natCast]
  push_cast
  field_simp

theorem log2_shiftLeft (hm : m ≠ 0) (k : ℕ) : (m <<< k).log2 = m.log2 + k := by
  rw [Nat.shiftLeft_eq, Nat.log2_eq_iff (by positivity), add_right_comm, pow_add, pow_add]
  exact ⟨Nat.mul_le_mul_right _ (Nat.log2_self_le hm), Nat.mul_lt_mul_of_pos_right Nat.lt_log2_self (by positivity)⟩

theorem roundsTo_round (s : Sign) (hm : 0 < m) :
    RoundsTo (signed s (m * 2 ^ e)) (UnpackedFloat.round Format.binary64 s m e) := by
  unfold UnpackedFloat.round decreaseExponent
  dsimp only
  rw [targetExponent_eq]
  generalize hk : (e - max ((m.log2 : ℤ) + 1 + e - 53) (-1074)).toNat = k
  rw [← mul_two_pow_zpow m k e]
  refine roundsTo_exact s ?_
  rw [log2_shiftLeft hm.ne']
  push_cast
  omega

theorem roundsTo_zero (s : Sign) : RoundsTo 0 (.zero s) where
  isFinite := rfl
  canonical := trivial
  bounded_iff := by
    refine iff_of_true trivial ?_
    rw [abs_zero, overflow]
    have hpos : (0 : ℚ) < 2 ^ (970 : ℤ) := by positivity
    generalize (2 : ℚ) ^ (970 : ℤ) = last at hpos
    linarith
  le_of_le y _ _ h := h
  ge_of_ge y _ _ h := h
  error := by
    simp only [unpackedValue_zero, sub_self, abs_zero, zero_div, zero_add]
    positivity

theorem roundsTo_normalize (m : ℤ) (e : ℤ) (s : Sign) :
    RoundsTo (m * 2 ^ e) (UnpackedFloat.normalize Format.binary64 m e s) := by
  unfold UnpackedFloat.normalize
  rcases lt_trichotomy m 0 with hm | rfl | hm
  · rw [compare_lt_iff_lt.mpr hm]
    have hround := roundsTo_round (e := e) .negative (m := (-m).toNat) (by omega)
    have hcast : (((-m).toNat : ℕ) : ℚ) = -(m : ℚ) := by
      rw [← Int.cast_neg]
      exact_mod_cast Int.toNat_of_nonneg (by omega)
    rw [signed, hcast, neg_mul, neg_neg] at hround
    exact hround
  · rw [compare_eq_iff_eq.mpr rfl, Int.cast_zero, zero_mul]
    exact roundsTo_zero s
  · rw [compare_gt_iff_gt.mpr hm]
    have hround := roundsTo_round (e := e) .positive (m := m.toNat) (by omega)
    have hcast : ((m.toNat : ℕ) : ℚ) = m := by exact_mod_cast Int.toNat_of_nonneg (by omega)
    rw [signed, hcast] at hround
    exact hround

end

/-! ### Unpacked arithmetic -/

section Arithmetic
variable {x y : UnpackedFloat}

/-- A double is rounded to itself. -/
theorem roundsTo_self (hx : x.isFinite = true) (hcanonical : IsCanonical x) (hbounded : IsBounded x) :
    RoundsTo (unpackedValue x) x where
  isFinite := hx
  canonical := hcanonical
  bounded_iff := by
    refine iff_of_true hbounded ?_
    have hpos : (0 : ℚ) < 2 ^ (970 : ℤ) := by positivity
    match x, hx, hcanonical, hbounded with
    | .zero s, _, _, _ => exact ((roundsTo_zero s).bounded_iff.mp trivial)
    | .finite s m e hm, _, ⟨hlt, _, _⟩, hbounded =>
      have hpower : (2 : ℚ) ^ e ≤ 2 * 2 ^ (970 : ℤ) := by
        rw [← zpow_one_add₀ two_ne_zero]
        exact zpow_le_zpow_right₀ one_le_two hbounded
      have hmantissa : (m : ℚ) + 1 ≤ 2 ^ 53 := by exact_mod_cast hlt
      have habs : |unpackedValue (.finite s m e hm)| = m * 2 ^ e := by
        have hnonneg : (0 : ℚ) ≤ m * 2 ^ e := by positivity
        rw [unpackedValue_finite]
        cases s with
        | positive => exact abs_of_nonneg hnonneg
        | negative => exact (abs_neg _).trans (abs_of_nonneg hnonneg)
      rw [habs, overflow]
      have hunit : (0 : ℚ) < 2 ^ e := by positivity
      generalize (2 : ℚ) ^ e = unit at hpower hunit ⊢
      generalize (2 : ℚ) ^ (970 : ℤ) = last at hpower hpos ⊢
      calc (m : ℚ) * unit ≤ (2 ^ 53 - 1) * (2 * last) :=
            mul_le_mul (by linarith) hpower hunit.le (by norm_num)
        _ < (2 ^ 54 - 1) * last := by linarith
  le_of_le y _ _ h := h
  ge_of_ge y _ _ h := h
  error := by
    rw [sub_self, abs_zero]
    positivity

theorem log2_mul_ge {m n : ℕ} (hm : m ≠ 0) (hn : n ≠ 0) : m.log2 + n.log2 ≤ (m * n).log2 := by
  rw [Nat.le_log2 (Nat.mul_ne_zero hm hn), pow_add]
  exact Nat.mul_le_mul (Nat.log2_self_le hm) (Nat.log2_self_le hn)

theorem log2_of_full {m : ℕ} {e : ℤ} (h : 2 ^ 52 ≤ m ∨ e = -1074) : 52 ≤ m.log2 ∨ e = -1074 :=
  h.imp_left fun hfull => (Nat.le_log2 (by omega)).mpr hfull

theorem roundsTo_mul (hx : x.isFinite = true) (hy : y.isFinite = true) (hcx : IsCanonical x) (hcy : IsCanonical y) :
    RoundsTo (unpackedValue x * unpackedValue y) (x.mul Format.binary64 y) := by
  match x, y, hx, hy, hcx, hcy with
  | .zero s, .zero t, _, _, _, _ => exact zero_mul (0 : ℚ) ▸ roundsTo_zero _
  | .zero s, .finite t m e hm, _, _, _, _ =>
    rw [unpackedValue_zero, zero_mul]
    exact roundsTo_zero _
  | .finite s m e hm, .zero t, _, _, _, _ =>
    rw [unpackedValue_zero, mul_zero]
    exact roundsTo_zero _
  | .finite s m e hm, .finite t n f hn, _, _, ⟨_, hmin, hfull⟩, ⟨_, hmin', hfull'⟩ =>
    have hproduct : unpackedValue (.finite s m e hm) * unpackedValue (.finite t n f hn) =
        signed (s * t) ((m * n : ℕ) * 2 ^ (e + f)) := by
      rw [unpackedValue_finite, unpackedValue_finite, ← signed_mul, zpow_add₀ two_ne_zero]
      congr 1
      push_cast
      ring
    rw [hproduct]
    refine roundsTo_exact (s * t) ?_
    have hlog := log2_mul_ge hm.ne' hn.ne'
    rcases log2_of_full hfull with hfull | rfl <;> rcases log2_of_full hfull' with hfull' | rfl <;> omega

/-- Where the remainder of a division lies. -/
theorem measures_accuracyOfFraction {n d : ℕ} (h : n < d) : Measures ((n : ℚ) / d) (accuracyOfFraction n d) := by
  have hd : (0 : ℚ) < d := by exact_mod_cast (Nat.zero_le n).trans_lt h
  have hlt : (n : ℚ) < d := by exact_mod_cast h
  unfold accuracyOfFraction
  split
  · rename_i hn
    subst hn
    show ((0 : ℕ) : ℚ) / d = 0
    simp
  · rename_i hn
    have hpos : (0 : ℚ) < n := by exact_mod_cast Nat.pos_of_ne_zero hn
    rcases lt_trichotomy (2 * n) d with hcase | hcase | hcase
    · rw [compare_lt_iff_lt.mpr hcase]
      have hcase : 2 * (n : ℚ) < d := by exact_mod_cast hcase
      exact ⟨by positivity, by rw [div_lt_div_iff₀ hd two_pos]; linarith⟩
    · rw [compare_eq_iff_eq.mpr hcase]
      have hcase : 2 * (n : ℚ) = d := by exact_mod_cast hcase
      show (n : ℚ) / d = 1 / 2
      rw [div_eq_div_iff hd.ne' two_ne_zero]
      linarith
    · rw [compare_gt_iff_gt.mpr hcase]
      have hcase : (d : ℚ) < 2 * n := by exact_mod_cast hcase
      exact ⟨by rw [div_lt_div_iff₀ two_pos hd]; linarith, (div_lt_one hd).mpr hlt⟩

/-- What a quotient of natural numbers leaves. -/
theorem div_sub_quotient (a : ℕ) {n : ℕ} (hn : n ≠ 0) : (a : ℚ) / n - (a / n : ℕ) = (a % n : ℕ) / n := by
  have hn' : (n : ℚ) ≠ 0 := by exact_mod_cast hn
  have hdivide : (a : ℚ) = n * (a / n : ℕ) + (a % n : ℕ) := by exact_mod_cast (Nat.div_add_mod a n).symm
  rw [sub_eq_iff_eq_add, div_eq_iff hn', add_mul, div_mul_cancel₀ _ hn']
  linarith

/-- A numerator that has 53 digits more than the denominator gives a quotient with 53 digits. -/
theorem log2_div_ge {a n : ℕ} (hn : n ≠ 0) (h : 52 + (n.log2 + 1) ≤ a.log2) : 52 ≤ (a / n).log2 := by
  have ha : a ≠ 0 := by
    rintro rfl
    rw [Nat.log2_zero] at h
    omega
  have hlarge : 2 ^ 52 * n ≤ a := by
    rw [Nat.le_log2 ha, pow_add] at h
    exact (Nat.mul_le_mul_left _ Nat.lt_log2_self.le).trans h
  have hquotient : 2 ^ 52 ≤ a / n := (Nat.le_div_iff_mul_le (Nat.pos_of_ne_zero hn)).mpr hlarge
  exact (Nat.le_log2 (by omega)).mpr hquotient

/-- A quotient has enough digits to be rounded, and its mark of accuracy tells the rest. -/
theorem divCore_eq {m n : ℕ} (e f : ℤ) (hm : m ≠ 0) (hn : n ≠ 0) :
    ∃ k g acc, divCore Format.binary64 m e n f = (k, g, acc) ∧
      Measures ((m : ℚ) * 2 ^ e / (n * 2 ^ f) / 2 ^ g - k) acc ∧
      g ≤ max ((k.log2 : ℤ) + 1 + g - 53) (-1074) := by
  refine ⟨_, _, _, rfl, ?_⟩
  show Measures _ (accuracyOfFraction _ n) ∧ _
  have htarget : Format.binary64.targetExponent (Float.Model.totalExponent m e - Float.Model.totalExponent n f) =
      max ((m.log2 : ℤ) + 1 + e - (n.log2 + 1 + f) - 53) (-1074) := rfl
  rw [htarget]
  generalize hg : min (e - f) (max ((m.log2 : ℤ) + 1 + e - (n.log2 + 1 + f) - 53) (-1074)) = g
  generalize hk : (e - f - g).toNat = k
  constructor
  · have hquotient : (m : ℚ) * 2 ^ e / (n * 2 ^ f) / 2 ^ g = ((m <<< k : ℕ) : ℚ) / n := by
      have hn' : (n : ℚ) ≠ 0 := by exact_mod_cast hn
      have hshifted := mul_two_pow_zpow m k e
      rw [show e - (k : ℤ) = f + g by omega, zpow_add₀ two_ne_zero] at hshifted
      rw [← hshifted]
      field_simp
    rw [hquotient]
    exact div_sub_quotient (m <<< k) hn ▸ measures_accuracyOfFraction (Nat.mod_lt _ (Nat.pos_of_ne_zero hn))
  · by_cases hmin : g ≤ -1074
    · exact le_max_of_le_right hmin
    · have hbits : 52 ≤ ((m <<< k) / n).log2 := by
        refine log2_div_ge hn ?_
        rw [log2_shiftLeft hm]
        omega
      omega

theorem roundsTo_div (hx : x.isFinite = true) (hy : y.isFinite = true) (hzero : unpackedValue y ≠ 0) :
    RoundsTo (unpackedValue x / unpackedValue y) (x.div Format.binary64 y) := by
  match x, y, hx, hy, hzero with
  | _, .zero t, _, _, hzero => exact absurd (unpackedValue_zero t) hzero
  | .zero s, .finite t m e hm, _, _, _ =>
    rw [unpackedValue_zero, zero_div]
    exact roundsTo_zero _
  | .finite s m e hm, .finite t n f hn, _, _, _ =>
    have hquotient : unpackedValue (.finite s m e hm) / unpackedValue (.finite t n f hn) =
        signed (s / t) ((m : ℚ) * 2 ^ e / (n * 2 ^ f)) := by
      rw [unpackedValue_finite, unpackedValue_finite, ← signed_div]
    rw [hquotient]
    obtain ⟨k, g, acc, hcore, hacc, he⟩ := divCore_eq e f hm.ne' hn.ne'
    have hdiv : UnpackedFloat.div Format.binary64 (.finite s m e hm) (.finite t n f hn) =
        roundWithAccuracy Format.binary64 (s / t) k g acc := by
      simp only [UnpackedFloat.div, hcore]
    rw [hdiv]
    exact roundsTo_roundWithAccuracy (s / t) (by positivity) hacc he

/-- The mantissa at a smaller exponent, with its sign. -/
theorem apply_decreaseExponent (s : Sign) {m : ℕ} {e f : ℤ} (hm : 0 < m) (hf : f ≤ e) :
    ((s.apply (decreaseExponent m e f).1 : ℤ) : ℚ) * 2 ^ f = unpackedValue (.finite s m e hm) := by
  have hshift : (((decreaseExponent m e f).1 : ℕ) : ℚ) * 2 ^ f = m * 2 ^ e := by
    have hshifted := mul_two_pow_zpow m (e - f).toNat e
    rw [show e - ((e - f).toNat : ℤ) = f by omega] at hshifted
    exact hshifted
  rw [unpackedValue_finite, ← hshift]
  cases s with
  | positive => rfl
  | negative =>
    show ((-((decreaseExponent m e f).1 : ℤ) : ℤ) : ℚ) * 2 ^ f = -_
    push_cast
    ring

theorem roundsTo_add (hx : RoundsTo (unpackedValue x) x) (hy : RoundsTo (unpackedValue y) y) :
    RoundsTo (unpackedValue x + unpackedValue y) (x.add Format.binary64 y) := by
  match x, y, hx, hy with
  | .notANumber, _, hx, _ => cases hx.isFinite
  | .infinity _, _, hx, _ => cases hx.isFinite
  | _, .notANumber, _, hy => cases hy.isFinite
  | _, .infinity _, _, hy => cases hy.isFinite
  | .zero s, .zero t, _, _ =>
    rw [unpackedValue_zero, unpackedValue_zero, add_zero]
    show RoundsTo 0 (if s == t then .zero s else .zero .positive)
    split <;> exact roundsTo_zero _
  | .zero s, .finite t m e hm, _, hy =>
    rw [unpackedValue_zero, zero_add]
    exact hy
  | .finite s m e hm, .zero t, hx, _ =>
    rw [unpackedValue_zero, add_zero]
    exact hx
  | .finite s m e hm, .finite t n f hn, _, _ =>
    rw [← apply_decreaseExponent s hm (min_le_left e f), ← apply_decreaseExponent t hn (min_le_right e f), ← add_mul,
      ← Int.cast_add]
    exact roundsTo_normalize _ _ _

theorem roundsTo_sub (hx : RoundsTo (unpackedValue x) x) (hy : RoundsTo (unpackedValue y) y) :
    RoundsTo (unpackedValue x - unpackedValue y) (x.sub Format.binary64 y) := by
  match x, y, hx, hy with
  | .notANumber, _, hx, _ => cases hx.isFinite
  | .infinity _, _, hx, _ => cases hx.isFinite
  | _, .notANumber, _, hy => cases hy.isFinite
  | _, .infinity _, _, hy => cases hy.isFinite
  | .zero s, .zero t, _, _ =>
    rw [unpackedValue_zero, unpackedValue_zero, sub_zero]
    show RoundsTo 0 (if s == -t then .zero s else .zero .positive)
    split <;> exact roundsTo_zero _
  | .zero s, .finite t m e hm, _, hy =>
    rw [unpackedValue_zero, zero_sub]
    exact hy.neg
  | .finite s m e hm, .zero t, hx, _ =>
    rw [unpackedValue_zero, sub_zero]
    exact hx
  | .finite s m e hm, .finite t n f hn, _, _ =>
    rw [← apply_decreaseExponent s hm (min_le_left e f), ← apply_decreaseExponent t hn (min_le_right e f), ← sub_mul,
      ← Int.cast_sub]
    exact roundsTo_normalize _ _ _

end Arithmetic

end Worksheet.Binary
