import Worksheet.Proofs.Number.Steady

/-! Percentages of two places. What is read from one is a hundredth of its digits, and what is written for that is the
    hundredfold: both are rounded, and up to a bound they are together off by less than half a unit of the last place. -/

namespace Worksheet
open Binary Text Numeral

namespace Written

theorem value_hundred : Binary.value 100.0 = 100 := by
  show ((100 * 2 ^ 46 : ℕ) : ℚ) * 2 ^ (-46 : ℤ) = 100
  norm_num

/-- A percentage of two places, without its `%`. -/
def hundredths (p : Float) : Numeral := (Numeral.fixed p 2).stripZeros.dropNegativeZero

theorem percentage_eq (x : Float) (s : Settings) :
    percentage x false s = decimal { hundredths (x * 100.0) with percent := true } := rfl

theorem steady_hundredths : Steady hundredths :=
  (steady_fixed 2).dress (dresses_dropNegativeZero.comp dresses_stripZeros)

theorem signed_fixed (places : ℤ) (x : Float) (hx : x.isFinite = true) (hne : Binary.value x ≠ 0) :
    (Numeral.fixed x places).negative = decide (Binary.value x < 0) := by
  rw [← isNegative_eq hx hne]
  unfold Numeral.fixed
  split <;> rfl

theorem signed_hundredths : Signed hundredths :=
  ((steady_fixed 2).dress dresses_stripZeros).signed_dropNegativeZero (signed_fixed 2)

section Hundred
variable {x : Float}

theorem rounds_div_hundred (hx : x.isFinite = true) : Rounds (Binary.value x / 100) (x / 100.0) := by
  have hrounds := rounds_div hx (y := 100.0) rfl (by rw [value_hundred]; norm_num)
  rwa [value_hundred] at hrounds

theorem rounds_mul_hundred (hx : x.isFinite = true) : Rounds (Binary.value x * 100) (x * 100.0) := by
  have hrounds := rounds_mul hx (y := 100.0) rfl
  rwa [value_hundred] at hrounds

/-- The size of a hundredth, which is always finite. -/
theorem div_hundred (hx : x.isFinite = true) : (x / 100.0).isFinite = true ∧
    |(|Binary.value (x / 100.0)|) - |Binary.value x| / 100| ≤ |Binary.value x| / 100 / 2 ^ 53 + 1 / 10 ^ 30 := by
  have habs : |Binary.value x / 100| = |Binary.value x| / 100 := by rw [abs_div, abs_of_pos (by norm_num : (0 : ℚ) < 100)]
  have hfinite : (x / 100.0).isFinite = true := by
    rw [(rounds_div_hundred hx).isFinite_iff, habs]
    linarith [abs_value_lt_overflow hx, abs_nonneg (Binary.value x)]
  refine ⟨hfinite, ?_⟩
  have herror := (rounds_div_hundred hx).abs_error hfinite
  rwa [habs] at herror

/-- The size of a hundredfold. -/
theorem mul_hundred (hx : x.isFinite = true) (hle : |Binary.value x| ≤ 2 * 10 ^ 11) : (x * 100.0).isFinite = true ∧
    |(|Binary.value (x * 100.0)|) - |Binary.value x| * 100| ≤ |Binary.value x| * 100 / 2 ^ 53 + 1 / 10 ^ 30 := by
  have habs : |Binary.value x * 100| = |Binary.value x| * 100 := by rw [abs_mul, abs_of_pos (by norm_num : (0 : ℚ) < 100)]
  have hfinite : (x * 100.0).isFinite = true := by
    rw [(rounds_mul_hundred hx).isFinite_iff, habs]
    linarith [two_pow_lt_overflow]
  refine ⟨hfinite, ?_⟩
  have herror := (rounds_mul_hundred hx).abs_error hfinite
  rwa [habs] at herror

/-- The hundredfold of a hundredth is off by less than a quarter of a hundredth, and has no other sign. -/
theorem mul_div_hundred (hx : x.isFinite = true) (hle : |Binary.value x| ≤ 11 * 10 ^ 12) :
    (x / 100.0 * 100.0).isFinite = true ∧ |(|Binary.value (x / 100.0 * 100.0)|) - (|Binary.value x|)| ≤ 1 / 400 ∧
      (0 ≤ Binary.value x → 0 ≤ Binary.value (x / 100.0 * 100.0)) ∧
      (Binary.value x ≤ 0 → Binary.value (x / 100.0 * 100.0) ≤ 0) := by
  obtain ⟨hquotient, hqerror⟩ := div_hundred hx
  rw [abs_le] at hqerror
  obtain ⟨hproduct, hperror⟩ := mul_hundred hquotient (by linarith)
  rw [abs_le] at hperror
  refine ⟨hproduct, abs_le.mpr ⟨by linarith, by linarith⟩, fun hnonneg => ?_, fun hnonpos => ?_⟩
  · have hsign := (rounds_div_hundred hx).nonneg hquotient (by linarith)
    exact (rounds_mul_hundred hquotient).nonneg hproduct (by linarith)
  · have hsign := (rounds_div_hundred hx).nonpos hquotient (by linarith)
    exact (rounds_mul_hundred hquotient).nonpos hproduct (by linarith)

end Hundred

/-- Half a unit is next to nothing. -/
theorem half_unit_le : 1 / 2 * unit ≤ 1 / 10 ^ 30 := by
  calc 1 / 2 * unit ≤ unit := by linarith [unit_pos]
    _ ≤ 2 ^ (-100 : ℤ) := zpow_le_zpow_right₀ one_le_two (by norm_num)
    _ ≤ 1 / 10 ^ 30 := by norm_num

/-- What the digits of a percentage of two places are read as is close to the percentage, and every double that is close
    to it has the same digits. -/
theorem hundredths_near {p : Float} (hp : p.isFinite = true) (hle : |Binary.value p| ≤ 10 ^ 13 + 1) {d : Decimal}
    (hd : d.rat = (Numeral.fixed p 2).decimal.rat) : d.toFloat.isFinite = true ∧
      Binary.value d.toFloat ≤ 11 * 10 ^ 12 ∧ ∀ y : Float, y.isFinite = true →
        |(|Binary.value y|) - Binary.value d.toFloat| ≤ 1 / 400 →
        (Numeral.fixed y 2).unsigned = (Numeral.fixed p 2).unsigned := by
  obtain ⟨c, hc, hshown⟩ := fixed_eq hp 2
  have hrat : d.rat = c / 100 := by
    rw [hd, hshown, decimal_ofScaled, Decimal.rat]
    show (c : ℚ) * 10 ^ (-(2 : ℕ) : ℤ) = c / 100
    norm_num
    ring
  have hhalf := abs_le.mp hc.le_half
  change -(1 / 2) ≤ |Binary.value p| * 10 ^ 2 - c ∧ |Binary.value p| * 10 ^ 2 - c ≤ 1 / 2 at hhalf
  have hfinite : d.toFloat.isFinite = true := Decimal.isFinite_toFloat (by rw [hrat]; linarith [two_pow_lt_overflow])
  have herror := Decimal.toFloat_error hfinite
  rw [hrat, abs_le] at herror
  have htiny := half_unit_le
  refine ⟨hfinite, by linarith, fun y hy hnear => unsigned_fixed hp hy fun c' hc' _ => ?_⟩
  obtain rfl := hc'.unique hc
  rw [abs_le] at hnear
  refine .inl ?_
  change |(|Binary.value y|) * 10 ^ 2 - (c' : ℚ)| < 1 / 2
  rw [abs_lt]
  constructor <;> linarith

/-- A percentage of two places is read as a double that is written as the same percentage. -/
theorem percentage_read {x : Float} (hx : x.isFinite = true) (hle : |Binary.value x| ≤ 10 ^ 11) (s : Settings) :
    ∃ w : Float, Literal.read? (percentage x false s).render .percent = some w ∧ w.isFinite = true ∧
      percentage w false s = percentage x false s := by
  have hdress := dresses_dropNegativeZero.comp dresses_stripZeros
  obtain ⟨hp, herror⟩ := mul_hundred hx (by linarith)
  generalize hproduct : x * 100.0 = p at hp herror
  obtain ⟨hfinite, hsmall, hnear⟩ := hundredths_near hp (by rw [abs_le] at herror; linarith)
    (d := (hundredths p).decimal) (hdress.rat _)
  obtain ⟨hnonneg, -⟩ := Decimal.toFloat_nearest hfinite (y := 0) rfl
  obtain ⟨hsize, hsign⟩ := value_signed hnonneg (hundredths p).negative
  have hread := ((steady_hundredths.proper p).dress (m := { hundredths p with percent := true }) rfl rfl).read?_render
    (steady_hundredths.isFinite hp) .percent
  generalize hv : (if (hundredths p).negative then -(hundredths p).decimal.toFloat
    else (hundredths p).decimal.toFloat) = v at hsize hsign
  have hvfinite : v.isFinite = true := by rw [← hv, isFinite_signed, hfinite]
  obtain ⟨hback, hclose, hup, hdown⟩ := mul_div_hundred hvfinite (by rwa [hsize])
  have hunsigned : (hundredths (v / 100.0 * 100.0)).unsigned = (hundredths p).unsigned := by
    unfold hundredths
    rw [hdress.unsigned, hnear _ hback (by rwa [← hsize]), ← hdress.unsigned]
  have hsame : hundredths (v / 100.0 * 100.0) = hundredths p := by
    refine steady_hundredths.write_eq signed_hundredths hp hback hunsigned fun hne => ?_
    rcases lt_trichotomy (Binary.value v) 0 with hneg | hzero | hpos
    · rw [← hsign hneg.ne, decide_eq_true hneg, decide_eq_true (lt_of_le_of_ne (hdown hneg.le) hne)]
    · exact absurd (le_antisymm (hdown hzero.le) (hup hzero.ge)) hne
    · rw [← hsign hpos.ne', decide_eq_false hpos.not_gt, decide_eq_false (hup hpos.le).not_gt]
  refine ⟨v / 100.0, ?_, (div_hundred hvfinite).1, ?_⟩
  · rw [percentage_eq, hproduct, ← hv]
    exact hread
  · rw [percentage_eq, percentage_eq, hproduct, hsame]

end Written

end Worksheet
