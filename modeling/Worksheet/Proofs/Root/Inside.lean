import Worksheet.Proofs.Number.Arithmetic
import Worksheet.Proofs.Root.Bracket

/-! A refinement stays inside its bracket. Every step is shorter than the way to the other end, by a margin that
    rounding does not use up; so the point that it leads to is rounded to a double between the two ends. -/

namespace Worksheet.Root
open Search Binary

/-! ### Points inside -/

/-- Two finite doubles in order, whose difference is finite. -/
structure Span (low high : Float) : Prop where
  low_finite : low.isFinite = true
  high_finite : high.isFinite = true
  le : value low ≤ value high
  finite : (high - low).isFinite = true

/-- A finite point between two others. -/
structure Inside (low high x : Float) : Prop where
  finite : x.isFinite = true
  low_le : value low ≤ value x
  le_high : value x ≤ value high

/-- A step in the direction of another, and no longer. -/
def Toward (whole step : ℚ) : Prop := |step| ≤ |whole| ∧ 0 ≤ step * whole

theorem Toward.between {b c d : ℚ} (h : Toward (c - b) d) : min b c ≤ b + d ∧ b + d ≤ max b c := by
  obtain ⟨hle, hsign⟩ := h
  rcases lt_trichotomy (c - b) 0 with hneg | hzero | hpos
  · have hd : d ≤ 0 := nonpos_of_mul_nonneg_left hsign hneg
    rw [abs_of_nonpos hd, abs_of_neg hneg] at hle
    exact ⟨min_le_of_right_le (by linarith), le_max_of_le_left (by linarith)⟩
  · rw [hzero, abs_zero] at hle
    have hd : d = 0 := abs_eq_zero.mp (le_antisymm hle (abs_nonneg d))
    rw [hd, add_zero]
    exact ⟨min_le_left b c, le_max_left b c⟩
  · have hd : 0 ≤ d := nonneg_of_mul_nonneg_left hsign hpos
    rw [abs_of_nonneg hd, abs_of_pos hpos] at hle
    exact ⟨min_le_of_left_le (by linarith), le_max_of_le_right (by linarith)⟩

section
variable {low high : Float} {b c d x y : Float}

theorem Span.inside_low (h : Span low high) : Inside low high low := ⟨h.low_finite, le_rfl, h.le⟩

theorem Span.inside_high (h : Span low high) : Inside low high high := ⟨h.high_finite, h.le, le_rfl⟩

/-- The difference of two points inside does not overflow. -/
theorem Inside.sub (h : Span low high) (hx : Inside low high x) (hy : Inside low high y) :
    (x - y).isFinite = true := by
  rw [(rounds_sub hx.finite hy.finite).isFinite_iff]
  have hspan := (rounds_sub h.high_finite h.low_finite).isFinite_iff.mp h.finite
  rw [abs_of_nonneg (sub_nonneg.mpr h.le)] at hspan
  refine lt_of_le_of_lt (abs_le.mpr ⟨?_, ?_⟩) hspan
  · linarith [hx.low_le, hy.le_high]
  · linarith [hx.le_high, hy.low_le]

/-- A step from one point inside toward another leads to a point inside. -/
theorem Inside.add (h : Span low high) (hb : Inside low high b) (hc : Inside low high c) (hd : d.isFinite = true)
    (htoward : Toward (value c - value b) (value d)) : Inside low high (b + d) := by
  obtain ⟨hmin, hmax⟩ := htoward.between
  have hle : value low ≤ value b + value d := (le_min hb.low_le hc.low_le).trans hmin
  have hge : value b + value d ≤ value high := hmax.trans (max_le hb.le_high hc.le_high)
  obtain ⟨hfinite, hlow, hhigh⟩ := (rounds_add hb.finite hd).between h.low_finite h.high_finite hle hge
  exact ⟨hfinite, hlow, hhigh⟩

end

/-! ### Shares of a difference -/

/-- Whether a share `t` is one of the difference `d`: less than seven eighths of it. -/
structure Share (t : Float) : Prop where
  finite : t.isFinite = true
  nonneg : 0 ≤ value t
  le : value t ≤ 7 / 8

theorem Share.abs_mul_le {t : Float} (ht : Share t) (d : ℚ) : |value t * d| ≤ 7 / 8 * |d| := by
  rw [abs_mul, abs_of_nonneg ht.nonneg]
  gcongr
  exact ht.le

theorem Share.mul {d t : Float} (ht : Share t) (hd : d.isFinite = true) : (t * d).isFinite = true := by
  rw [(rounds_mul ht.finite hd).isFinite_iff]
  linarith [ht.abs_mul_le (value d), abs_value_lt_overflow hd, abs_nonneg (value d)]

/-- A share of a rounded difference, unless the difference is tiny, is shorter than the exact one. -/
theorem Share.toward {whole : ℚ} {d t : Float} (ht : Share t) (hd : Rounds whole d) (hfinite : d.isFinite = true)
    (hlarge : 1 / 10 ^ 20 ≤ |value d|) : Toward whole (value (t * d)) := by
  have hproduct := rounds_mul ht.finite hfinite
  have hshare := ht.abs_mul_le (value d)
  have hbound := hproduct.abs_le (ht.mul hfinite)
  have hbound' := hd.abs_le hfinite
  refine ⟨by linarith, hproduct.zero_le_mul (ht.mul hfinite) ?_⟩
  rw [mul_assoc]
  exact mul_nonneg ht.nonneg (hd.zero_le_mul hfinite (mul_self_nonneg whole))

theorem value_seven_eighths : value 0.875 = 7 / 8 := by
  show ((7881299347898368 : ℕ) : ℚ) * 2 ^ (-53 : ℤ) = 7 / 8
  norm_num

theorem share_of_mem_fractions {t : Float} (h : t ∈ fractions) : Share t := by
  have hfractions : ∀ t ∈ fractions, t.isFinite = true ∧ 0 ≤ t ∧ t ≤ 0.875 := by decide +kernel
  obtain ⟨hfinite, hnonneg, hle⟩ := hfractions t h
  rw [le_iff_value rfl hfinite] at hnonneg
  rw [le_iff_value hfinite rfl, value_seven_eighths] at hle
  exact ⟨hfinite, hnonneg, hle⟩

theorem le_overflow : 10 ^ 16 ≤ overflow := by
  have hlast : (1 : ℚ) ≤ 2 ^ (970 : ℤ) := one_le_zpow₀ one_le_two (by decide)
  rw [overflow]
  generalize (2 : ℚ) ^ (970 : ℤ) = last at hlast
  linarith

/-- The tolerance at a point is finite, and not tiny. -/
theorem tolerance_spec {x : Float} (hx : x.isFinite = true) :
    (2.0 * epsilon * x.abs + 0.5e-15).isFinite = true ∧ 1 / 10 ^ 16 ≤ value (2.0 * epsilon * x.abs + 0.5e-15) := by
  have hunit : value (2.0 * epsilon) = 1 / 2 ^ 51 := by
    show ((4503599627370496 : ℕ) : ℚ) * 2 ^ (-103 : ℤ) = _
    norm_num
  have hleast : 1 / 10 ^ 16 ≤ value 0.5e-15 ∧ value 0.5e-15 ≤ 1 := by
    show 1 / 10 ^ 16 ≤ ((5070602400912918 : ℕ) : ℚ) * 2 ^ (-103 : ℤ) ∧ ((5070602400912918 : ℕ) : ℚ) * 2 ^ (-103 : ℤ) ≤ 1
    norm_num
  have hoverflow := le_overflow
  have habs : x.abs.isFinite = true := isFinite_abs x ▸ hx
  have hshare := rounds_mul (x := 2.0 * epsilon) (y := x.abs) rfl habs
  rw [hunit, value_abs] at hshare
  have hnonneg : (0 : ℚ) ≤ 1 / 2 ^ 51 * |value x| := by positivity
  have hsmall := abs_value_lt_overflow hx
  have hfinite := hshare.isFinite_of_nonneg hnonneg (by linarith [abs_nonneg (value x)])
  have hbound := hshare.le_of_nonneg hfinite hnonneg
  have hvalue := hshare.nonneg hfinite hnonneg
  have hsum := rounds_add (y := 0.5e-15) hfinite rfl
  have hfinite' := hsum.isFinite_of_nonneg (by linarith [hleast.1]) (by linarith [hleast.2])
  exact ⟨hfinite', hleast.1.trans (hsum.le_of_le hfinite' 0.5e-15 rfl (by linarith))⟩

/-! ### Bisection -/

section
variable {low high : Float}

/-- A bracket that is not narrow is divided at a point inside. -/
theorem inside_divide {b : Bracket} {t : Float} (h : Span low high) (hlow : Inside low high b.low)
    (hhigh : Inside low high b.high) (hwide : b.isNarrow = false) (ht : t ∈ fractions) :
    Inside low high (b.low + t * (b.high - b.low)) := by
  have hshare := share_of_mem_fractions ht
  have hsub := hhigh.sub h hlow
  have hrounds := rounds_sub hhigh.finite hlow.finite
  have hlarge : 1 / 10 ^ 20 ≤ |value (b.high - b.low)| := by
    have hgreater : ∃ x : Float, x.isFinite = true ∧ greater b.low.abs b.high.abs = x.abs := by
      unfold greater
      split
      · exact ⟨b.high, hhigh.finite, rfl⟩
      · exact ⟨b.low, hlow.finite, rfl⟩
    obtain ⟨x, hx, hmax⟩ := hgreater
    obtain ⟨htol, hleast⟩ := tolerance_spec hx
    have hwide : ¬(b.high - b.low).abs ≤ 2.0 * epsilon * x.abs + 0.5e-15 := by
      simpa [Bracket.isNarrow, hmax] using hwide
    rw [le_iff_value ((isFinite_abs _).trans hsub) htol, value_abs, not_le] at hwide
    linarith
  exact hlow.add h hhigh (hshare.mul hsub) (hshare.toward hrounds hsub hlarge)

end

/-! ### Interpolation -/

section
variable {T q tol e P S I : Float}

/-- What is above a finite double that is not negative is positive, even if it is infinite. -/
theorem zero_lt_of_lt (h : P < I) (hP : P.isFinite = true) (hnonneg : 0 ≤ value P) : 0 < I := by
  rcases isFinite_or_zero_lt h hP with hI | hI
  · rw [lt_iff_value hP hI] at h
    exact (lt_iff_value rfl hI).mpr (hnonneg.trans_lt h)
  · exact hI

theorem value_nonneg_of_not_lt_zero (hS : S.isFinite = true) (h : ¬S < 0) : 0 ≤ value S := by
  rwa [lt_iff_value hS rfl, value_zero, not_lt] at h

theorem lt_smaller_cases (h : P < smaller I S) : P < I ∨ P < S ∧ S < I := by
  unfold smaller at h
  split at h
  · exact .inr ⟨h, ‹_›⟩
  · exact .inl h

theorem zero_lt_of_lt_smaller (h : P < smaller I S.abs) (hP : P.isFinite = true) (hnonneg : 0 ≤ value P) : 0 < I := by
  rcases lt_smaller_cases h with h | ⟨h, h'⟩
  · exact zero_lt_of_lt h hP hnonneg
  · have hS := isFinite_of_lt h' (not_abs_lt_zero S)
    exact zero_lt_of_lt h' hS (value_nonneg_of_not_lt_zero hS (not_abs_lt_zero S))

/-- What stays below a rounded product, less some margin, stays below the exact product. -/
theorem lt_mul_of_lt_smaller (hT : T.isFinite = true) (hq : q.isFinite = true)
    (hP : P.isFinite = true) (hnonneg : 0 ≤ value P) (h : P < smaller (T * q - (tol * q).abs) S.abs) :
    value P < value T * value q := by
  by_contra hle
  rw [not_lt] at hle
  have hpos := zero_lt_of_lt_smaller h hP hnonneg
  have hproduct := rounds_mul hT hq
  have hA : (T * q).isFinite = true ∧ value (T * q) ≤ value P := by
    by_cases hsign : 0 ≤ value T * value q
    · obtain ⟨hA, -, hAP⟩ := hproduct.between (y := 0) rfl hP hsign hle
      exact ⟨hA, hAP⟩
    · have hA : (T * q).isFinite = true := by
        by_contra hA
        exact hsign (hproduct.positive (zero_lt_of_sub_abs hA hpos)).le
      exact ⟨hA, (hproduct.nonpos hA (not_le.mp hsign).le).trans hnonneg⟩
  obtain ⟨hA, hAP⟩ := hA
  have hB := isFinite_of_sub_abs hA hpos
  have hdifference := rounds_sub hA ((isFinite_abs (tol * q)).trans hB)
  rw [value_abs] at hdifference
  have hle' : value (T * q) - |value (tol * q)| ≤ value P := by linarith [abs_nonneg (value (tol * q))]
  obtain ⟨hI, -, hIP⟩ := hdifference.between (y := 0) rfl hP (hdifference.positive hpos).le hle'
  rcases lt_smaller_cases h with h | ⟨h, h'⟩
  · rw [lt_iff_value hP hI] at h
    linarith
  · have hS := isFinite_of_lt h' (not_abs_lt_zero S)
    rw [lt_iff_value hP hS] at h
    rw [lt_iff_value hS hI] at h'
    linarith

/-- Where one factor is infinite, the other bound is the smaller one, and the factors have one sign. -/
theorem lt_abs_mul_of_lt_smaller (hT : ¬T.isFinite = true) (hq : q.isFinite = true) (he : e.isFinite = true)
    (hP : P.isFinite = true) (hnonneg : 0 ≤ value P) (h : P < smaller (T * q - (tol * q).abs) (e * q).abs) :
    value P < |value e * value q| ∧ (0 < T ∧ 0 < q ∨ T < 0 ∧ q < 0) := by
  have hpos := zero_lt_of_lt_smaller h hP hnonneg
  have hA : ¬(T * q).isFinite = true := not_isFinite_mul (.inl hT)
  refine ⟨?_, signs_of_zero_lt_mul hT (zero_lt_of_sub_abs hA hpos)⟩
  by_contra hle
  rw [not_lt, abs_le] at hle
  obtain ⟨hfinite, hlow, hhigh⟩ := (rounds_mul he hq).between (y := -P) (z := P) ((isFinite_neg P).trans hP) hP
    ((value_neg P).trans_le hle.1) hle.2
  rw [value_neg] at hlow
  have hS : (e * q).abs.isFinite = true := (isFinite_abs _).trans hfinite
  have hless := lt_of_not_isFinite hS (not_isFinite_sub_abs hA) hpos
  rw [smaller, if_pos hless, lt_iff_value hP hS, value_abs] at h
  exact absurd (abs_le.mpr ⟨hlow, hhigh⟩) (not_le.mpr h)

end

section
variable {whole : ℚ} {d e p q tol : Float}

/-- A quotient whose numerator is less than half of a bound times the denominator is about half of the bound. -/
theorem quotient_bound {M : ℚ} (hp : p.isFinite = true) (hq : q.isFinite = true) (hM : M < overflow)
    (h : 2 * |value p| < M * |value q|) :
    Rounds (|value p| / value q) (p.abs / q) ∧ (p.abs / q).isFinite = true ∧
      |value (p.abs / q)| ≤ 1001 / 1000 * (M / 2) + 1 / 10 ^ 30 := by
  have hzero : value q ≠ 0 := by
    intro hzero
    rw [hzero, abs_zero, mul_zero] at h
    linarith [abs_nonneg (value p)]
  have hpos : 0 < |value q| := abs_pos.mpr hzero
  have hrounds := rounds_div ((isFinite_abs p).trans hp) hq hzero
  rw [value_abs] at hrounds
  have hlt : |(|value p| / value q)| < M / 2 := by
    rw [abs_div, abs_abs, div_lt_div_iff₀ hpos two_pos]
    linarith
  have hfinite : (p.abs / q).isFinite = true := by
    rw [hrounds.isFinite_iff]
    linarith [abs_nonneg (|value p| / value q)]
  exact ⟨hrounds, hfinite, by linarith [hrounds.abs_le hfinite]⟩

/-- The sign of a quotient is that of its denominator. -/
theorem quotient_sign {r : ℚ} (h : 0 < r * value q) (hwhole : 0 ≤ r * whole) : 0 ≤ |value p| / value q * whole := by
  have hsign : 0 ≤ value q * whole := by
    rcases lt_or_gt_of_ne (left_ne_zero_of_mul h.ne') with hr | hr
    · exact mul_nonneg_of_nonpos_of_nonpos (neg_of_mul_pos_right h hr.le).le (nonpos_of_mul_nonneg_right hwhole hr)
    · exact mul_nonneg (pos_of_mul_pos_right h hr.le).le (nonneg_of_mul_nonneg_right hwhole hr)
  have hquotient : |value p| / value q * whole = |value p| * (value q * whole) / (value q * value q) := by
    have hzero := right_ne_zero_of_mul h.ne'
    field_simp
  rw [hquotient]
  exact div_nonneg (mul_nonneg (abs_nonneg _) hsign) (mul_self_nonneg _)

/-- Half of a rounded difference is finite, about half as long, and has its sign. -/
theorem half_of_rounds (hd : Rounds whole d) (hfinite : d.isFinite = true) :
    (0.5 * d).isFinite = true ∧ |value (0.5 * d)| ≤ 1001 / 1000 * (1 / 2 * |value d|) + 1 / 10 ^ 30 ∧
      0 ≤ value (0.5 * d) * whole := by
  have hhalf := rounds_mul (x := 0.5) rfl hfinite
  rw [value_half] at hhalf
  have habs : |1 / 2 * value d| = 1 / 2 * |value d| := by rw [abs_mul, abs_of_pos (by norm_num : (0 : ℚ) < 1 / 2)]
  have hX : (0.5 * d).isFinite = true := by
    rw [hhalf.isFinite_iff, habs]
    linarith [abs_value_lt_overflow hfinite, abs_nonneg (value d)]
  refine ⟨hX, habs ▸ hhalf.abs_le hX, hhalf.zero_le_mul hX ?_⟩
  rw [mul_assoc]
  exact mul_nonneg (by norm_num) (hd.zero_le_mul hfinite (mul_self_nonneg whole))

/-- The doubled numerator of a move that passes the test is below something, so it is finite, and exact. -/
theorem doubled_of_lt_smaller {I S : Float} (h : 2.0 * p.abs < smaller I S) :
    p.isFinite = true ∧ (2.0 * p.abs).isFinite = true ∧ value (2.0 * p.abs) = 2 * |value p| := by
  have hdouble : (2.0 * p.abs).isFinite = true := by
    rcases lt_smaller_cases h with h | ⟨h, -⟩ <;> exact isFinite_of_lt h (not_double_abs_lt_zero p)
  have hp : p.isFinite = true := by
    by_contra hp
    exact not_isFinite_mul (.inr fun habs => hp ((isFinite_abs p).symm.trans habs)) hdouble
  have hvalue := value_two_mul ((isFinite_abs p).trans hp) hdouble
  rw [value_abs] at hvalue
  exact ⟨hp, hdouble, hvalue⟩

/-- A move whose numerator stays below three halves of the bracket times the denominator. -/
theorem toward_of_lt_mul (hd : Rounds whole d) (hfinite : d.isFinite = true) (hlarge : 1 / 10 ^ 20 ≤ |value d|)
    (hp : p.isFinite = true) (hq : q.isFinite = true) (hT : (3.0 * (0.5 * d)).isFinite = true)
    (hlt : 2 * |value p| < value (3.0 * (0.5 * d)) * value q) :
    (p.abs / q).isFinite = true ∧ Toward whole (value (p.abs / q)) := by
  obtain ⟨hX, hX', hsign⟩ := half_of_rounds hd hfinite
  have hthree := rounds_mul (x := 3.0) rfl hX
  rw [value_three] at hthree
  have hT' := hthree.abs_le hT
  rw [abs_mul, abs_of_pos (by norm_num : (0 : ℚ) < 3)] at hT'
  have hd' := hd.abs_le hfinite
  have hM : 2 * |value p| < |value (3.0 * (0.5 * d))| * |value q| := by
    rw [← abs_mul]
    exact hlt.trans_le (le_abs_self _)
  obtain ⟨hrounds, hfinite', hbound⟩ := quotient_bound hp hq (abs_value_lt_overflow hT) hM
  refine ⟨hfinite', by linarith, hrounds.zero_le_mul hfinite' ?_⟩
  refine quotient_sign (r := value (3.0 * (0.5 * d))) (by linarith [abs_nonneg (value p)]) ?_
  refine hthree.zero_le_mul hT ?_
  rw [mul_assoc]
  exact mul_nonneg (by norm_num) hsign

/-- A move below the one before. Where three halves of the bracket overflow, the bracket is longer than any move. -/
theorem toward_of_overflow (hd : Rounds whole d) (hfinite : d.isFinite = true) (hp : p.isFinite = true)
    (hq : q.isFinite = true) (he : e.isFinite = true) (hT : ¬(3.0 * (0.5 * d)).isFinite = true)
    (hlt : 2 * |value p| < |value e * value q|)
    (hsigns : 0 < 3.0 * (0.5 * d) ∧ 0 < q ∨ 3.0 * (0.5 * d) < 0 ∧ q < 0) :
    (p.abs / q).isFinite = true ∧ Toward whole (value (p.abs / q)) := by
  obtain ⟨hX, hX', hsign⟩ := half_of_rounds hd hfinite
  have hthree := rounds_mul (x := 3.0) rfl hX
  rw [value_three] at hthree
  have hd' := hd.abs_le hfinite
  rw [abs_mul] at hlt
  obtain ⟨hrounds, hfinite', hbound⟩ := quotient_bound hp hq (abs_value_lt_overflow he) hlt
  have hlong := hT
  rw [hthree.isFinite_iff, not_lt, abs_mul, abs_of_pos (by norm_num : (0 : ℚ) < 3)] at hlong
  refine ⟨hfinite', by linarith [abs_value_lt_overflow he, le_overflow], hrounds.zero_le_mul hfinite' ?_⟩
  refine quotient_sign (r := value (0.5 * d)) ?_ hsign
  rcases hsigns with ⟨hT, hq'⟩ | ⟨hT, hq'⟩
  · rw [lt_iff_value rfl hq, value_zero] at hq'
    exact mul_pos (by linarith [hthree.positive hT]) hq'
  · rw [lt_iff_value hq rfl, value_zero] at hq'
    exact mul_pos_of_neg_of_neg (by linarith [hthree.negative hT]) hq'

/-- An interpolated move that passes the test leads toward the other end of the bracket, and not beyond it. -/
theorem interpolated (hd : Rounds whole d) (hfinite : d.isFinite = true) (hlarge : 1 / 10 ^ 20 ≤ |value d|)
    (he : e.isFinite = true)
    (h : 2.0 * p.abs < smaller (3.0 * (0.5 * d) * q - (tol * q).abs) (e * q).abs) :
    (p.abs / q).isFinite = true ∧ Toward whole (value (p.abs / q)) := by
  obtain ⟨hp, hdouble, hvalue⟩ := doubled_of_lt_smaller h
  have hnonneg : 0 ≤ value (2.0 * p.abs) := by
    rw [hvalue]
    positivity
  by_cases hq : q.isFinite = true
  · by_cases hT : (3.0 * (0.5 * d)).isFinite = true
    · have hlt := lt_mul_of_lt_smaller hT hq hdouble hnonneg h
      exact toward_of_lt_mul hd hfinite hlarge hp hq hT (hvalue ▸ hlt)
    · obtain ⟨hlt, hsigns⟩ := lt_abs_mul_of_lt_smaller hT hq he hdouble hnonneg h
      exact toward_of_overflow hd hfinite hp hq he hT (hvalue ▸ hlt) hsigns
  · -- an infinite denominator makes the move zero
    have hpos := zero_lt_of_lt_smaller h hdouble hnonneg
    have hA : ¬(3.0 * (0.5 * d) * q).isFinite = true := not_isFinite_mul (.inr hq)
    have hnan := isNaN_right_of_zero_lt_mul (zero_lt_of_sub_abs hA hpos)
    obtain ⟨hfinite', hzero⟩ := div_of_not_isFinite ((isFinite_abs p).trans hp) hq hnan
    refine ⟨hfinite', ?_⟩
    rw [hzero]
    exact ⟨by simp, by simp⟩

end

/-! ### Brent's method -/

/-- The three points are inside, and the moves are finite. -/
structure Brent.Stays (low high : Float) (s : Brent) : Prop where
  a : Inside low high s.a
  b : Inside low high s.b
  c : Inside low high s.c
  move : s.move.isFinite = true
  moveBefore : s.moveBefore.isFinite = true

namespace Brent
variable {low high : Float} {s : Brent}

/-- The next move is half of the bracket, or an interpolated one that passes the test. -/
theorem nextMove_cases (s : Brent) : s.nextMove = (s.halfway, s.halfway) ∨
    ∃ p q : Float, s.nextMove = (p.abs / q, s.move) ∧
      2.0 * p.abs < smaller (3.0 * s.halfway * q - (s.tolerance * q).abs) (s.moveBefore * q).abs := by
  unfold nextMove
  dsimp only
  generalize s.interpolation.1 = p
  generalize (if p > 0 then -s.interpolation.2 else s.interpolation.2) = q
  split
  · split
    · exact .inr ⟨p, q, rfl, ‹_›⟩
    · exact .inl rfl
  · exact .inl rfl

theorem Stays.start {a b fa fb : Float} (h : Span low high) (ha : Inside low high a) (hb : Inside low high b) :
    (start a fa b fb).Stays low high :=
  ⟨ha, hb, hb, hb.sub h ha, hb.sub h ha⟩

theorem Stays.rebracket (h : Span low high) (hs : s.Stays low high) : s.rebracket.Stays low high := by
  unfold Brent.rebracket
  split
  · exact ⟨hs.a, hs.b, hs.a, hs.b.sub h hs.a, hs.b.sub h hs.a⟩
  · exact hs

theorem Stays.orient (hs : s.Stays low high) : s.orient.Stays low high := by
  unfold Brent.orient
  split
  · exact ⟨hs.b, hs.c, hs.b, hs.move, hs.moveBefore⟩
  · exact hs

/-- Half of a bracket that is not done leads toward its other end, and is longer than the tolerance. -/
theorem Stays.halfway (h : Span low high) (hs : s.Stays low high) (hgoes : s.isDone = false) :
    s.halfway.isFinite = true ∧ s.tolerance.isFinite = true ∧ 0 < value s.tolerance ∧
      value s.tolerance < |value s.halfway| ∧ 1 / 10 ^ 20 ≤ |value (s.c - s.b)| ∧
      Toward (value s.c - value s.b) (value s.halfway) := by
  have hshare : Share 0.5 := share_of_mem_fractions List.mem_cons_self
  have hsub := hs.c.sub h hs.b
  have hrounds := rounds_sub hs.c.finite hs.b.finite
  have hhalf : s.halfway.isFinite = true := hshare.mul hsub
  obtain ⟨htol, hleast⟩ := tolerance_spec hs.b.finite
  change s.tolerance.isFinite = true at htol
  change _ ≤ value s.tolerance at hleast
  have hwide : ¬s.halfway.abs ≤ s.tolerance := by
    simp only [isDone, Bool.or_eq_false_iff, decide_eq_false_iff_not] at hgoes
    exact hgoes.1
  rw [le_iff_value ((isFinite_abs _).trans hhalf) htol, value_abs, not_le] at hwide
  have hbound := (rounds_mul hshare.finite hsub).abs_le hhalf
  have hlarge : 1 / 10 ^ 20 ≤ |value (s.c - s.b)| := by
    have hle := hshare.abs_mul_le (value (s.c - s.b))
    change |value s.halfway| ≤ _ at hbound
    linarith
  exact ⟨hhalf, htol, by linarith, hwide, hlarge, hshare.toward hrounds hsub hlarge⟩

/-- The next move leads toward the other end of the bracket, and both moves are finite. -/
theorem Stays.nextMove (h : Span low high) (hs : s.Stays low high) (hgoes : s.isDone = false) :
    s.nextMove.1.isFinite = true ∧ Toward (value s.c - value s.b) (value s.nextMove.1) ∧
      s.nextMove.2.isFinite = true := by
  obtain ⟨hhalf, -, -, -, hlarge, htoward⟩ := hs.halfway h hgoes
  rcases s.nextMove_cases with hmove | ⟨p, q, hmove, htest⟩ <;> rw [hmove]
  · exact ⟨hhalf, htoward, hhalf⟩
  · obtain ⟨hfinite, htoward⟩ := interpolated (rounds_sub hs.c.finite hs.b.finite) (hs.c.sub h hs.b) hlarge
      hs.moveBefore htest
    exact ⟨hfinite, htoward, hs.move⟩

/-- The tolerance, in the direction of the other end, is a step toward it. -/
theorem Stays.toward_tolerance (h : Span low high) (hs : s.Stays low high) (hgoes : s.isDone = false) :
    Toward (value s.c - value s.b) (value (if s.halfway ≥ 0 then s.tolerance else -s.tolerance)) := by
  obtain ⟨hhalf, htol, hpos, hlt, -, hle, hsign⟩ := hs.halfway h hgoes
  split
  · rename_i hge
    rw [ge_iff_le, le_iff_value rfl hhalf, value_zero] at hge
    rw [abs_of_nonneg hge] at hlt
    have hwhole := nonneg_of_mul_nonneg_right hsign (hpos.trans hlt)
    exact ⟨by rw [abs_of_pos hpos]; linarith [le_abs_self (value s.halfway)], mul_nonneg hpos.le hwhole⟩
  · rename_i hge
    rw [ge_iff_le, le_iff_value rfl hhalf, value_zero, not_le] at hge
    have hwhole := nonpos_of_mul_nonneg_right hsign hge
    rw [value_neg, Toward, abs_neg, abs_of_pos hpos]
    exact ⟨by linarith, mul_nonneg_of_nonpos_of_nonpos (by linarith) hwhole⟩

theorem Stays.target (h : Span low high) (hs : s.Stays low high) (hgoes : s.isDone = false) :
    Inside low high (s.target s.nextMove.1) := by
  obtain ⟨hmove, htoward, -⟩ := hs.nextMove h hgoes
  obtain ⟨-, htol, -⟩ := hs.halfway h hgoes
  unfold Brent.target
  split
  · exact hs.b.add h hs.c hmove htoward
  · refine hs.b.add h hs.c ?_ (hs.toward_tolerance h hgoes)
    split
    · exact htol
    · exact (isFinite_neg _).trans htol

theorem Stays.moved {f : Float → Float} (h : Span low high) (hs : s.Stays low high) (hgoes : s.isDone = false) :
    (s.moved f).Stays low high := by
  obtain ⟨hmove, -, hmoveBefore⟩ := hs.nextMove h hgoes
  exact ⟨hs.b, hs.target h hgoes, hs.c, hmove, hmoveBefore⟩

end Brent

/-! ### The whole refinement -/

/-- All points of an iteration are inside. -/
def Stage.Stays (low high : Float) : Stage → Prop
  | brent _ s => s.Stays low high
  | bisect _ b => Inside low high b.low ∧ Inside low high b.high

section
variable {f : Float → Float} {points asked : Array Float} {low high r : Float}

theorem Inside.half {b : Bracket} {m : Float} (fm : Float) (hlow : Inside low high b.low)
    (hhigh : Inside low high b.high) (hm : Inside low high m) :
    Inside low high (b.half m fm).low ∧ Inside low high (b.half m fm).high := by
  unfold Bracket.half
  split
  · exact ⟨hlow, hm⟩
  · exact ⟨hm, hhigh⟩

theorem Next.stays {x y : Stage × Array Float} (hnext : Next f x y) (h : Span low high) (hx : x.1.Stays low high) :
    y.1.Stays low high := by
  cases hnext with
  | brent hgoes hadvance hvalue =>
    obtain rfl := eq_moved hadvance
    exact (Brent.Stays.rebracket h hx).orient.moved h hgoes
  | handOver hgoes hadvance hvalue =>
    obtain rfl := eq_moved hadvance
    have hmoved := (Brent.Stays.rebracket h hx).orient.moved h (f := f) hgoes
    exact ⟨hmoved.a, hmoved.c⟩
  | bisect hgoes hdivide hvalue =>
    obtain ⟨⟨t, ht, rfl⟩, rfl, -⟩ := divides hdivide
    exact Inside.half _ hx.1 hx.2 (inside_divide h hx.1 hx.2 hgoes ht)

theorem Reaches.stays {x y : Stage × Array Float} (hreaches : Reaches f x y) (h : Span low high)
    (hx : x.1.Stays low high) : y.1.Stays low high := by
  induction hreaches with
  | refl => exact hx
  | tail _ hnext ih => exact hnext.stays h ih

theorem Ends.inside {x : Stage × Array Float} (hends : Ends f x r) (h : Span low high) (hx : x.1.Stays low high) :
    Inside low high r := by
  cases hends with
  | brent hdone => exact (Brent.Stays.rebracket h hx).orient.b
  | narrow hnarrow =>
    unfold Bracket.better
    split
    · exact hx.1
    · exact hx.2
  | zero hgoes hdivide hvalue =>
    obtain ⟨⟨t, ht, rfl⟩, -, -⟩ := divides hdivide
    exact inside_divide h hx.1 hx.2 hgoes ht

/-- Brent's method, with bisection behind it, gives a point between the ends that it is given. -/
theorem inside_run {a b fa fb : Float} (h : Span low high) (ha : Inside low high a) (hb : Inside low high b)
    (hrun : (Brent.run f maxSteps (Brent.start a fa b fb)).run points = (.ok r, asked)) : Inside low high r := by
  obtain ⟨x, between, hreaches, hends⟩ := exists_ends_brent hrun
  exact hends.inside h (hreaches.stays h (Brent.Stays.start h ha hb))

end

end Worksheet.Root
