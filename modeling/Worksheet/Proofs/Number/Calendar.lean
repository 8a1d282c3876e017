import Worksheet.Proofs.Expr.Reads
import Worksheet.Proofs.Number.Gregorian
import Worksheet.Proofs.Number.Whole

/-! Julian days and dates as doubles. In every year that is an integer of 32 bits, also with 4800 added to it, all
    numbers in the conversions are integers that doubles hold, and so the conversions are those of the calendar in
    integers. -/

namespace Worksheet
namespace Calendar
open Binary

/-! ### Julian days -/

/-- The days of the years that are integers of 32 bits, also with 4800 added to them. -/
def IsCovered (n : ℤ) : Prop := dayNumber (-2 ^ 31) 1 1 ≤ n ∧ n < dayNumber (2 ^ 31 - 4800) 1 1

theorem isCovered_iff {n : ℤ} : IsCovered n ↔ -784350575245 ≤ n ∧ n < 784352264201 := by
  have hfirst : dayNumber (-2 ^ 31) 1 1 = -784350575245 := by decide
  have hlast : dayNumber (2 ^ 31 - 4800) 1 1 = 784352264201 := by decide
  unfold IsCovered
  rw [hfirst, hlast]

theorem isCovered_of_abs_le {n : ℤ} (h : |n| ≤ 10 ^ 8) : IsCovered n := by
  rw [abs_le] at h
  exact isCovered_iff.mpr (by omega)

/-- The numbers that the conversions are written with. -/
def literals : List ℕ := [2, 3, 4, 5, 10, 12, 100, 153, 365, 400, 1461, 4800, 10000, 32044, 32045, 146097]

theorem exactly_literal {n : ℕ} (h : n ∈ literals) : Exactly (Float.ofNat n) n := by
  have hliterals : ∀ n ∈ literals, n < 2 ^ 53 ∧ (Float.ofNat n == ofInt n) = true := by decide +kernel
  obtain ⟨hlt, heq⟩ := hliterals n h
  exact exactly_of_beq (by omega) heq

section
variable {x : Float} {n year month day : ℤ}

theorem IsDate.day_le_31 (h : IsDate year month day) : day ≤ 31 := by
  have hlength := h.day_le
  unfold monthLength at hlength
  split at hlength <;> split at hlength <;> omega

/-- The Julian day of a date is the number of its day. -/
theorem exactly_toJulian (h : IsDate year month day) (hlow : -2 ^ 31 ≤ year) (hhigh : year + 4800 < 2 ^ 31) :
    Exactly (toJulian year month day) (dayNumber year month day) := by
  have hmonth := h.month_pos
  have hmonth' := h.month_le
  have hday := h.day_pos
  have hday' := h.day_le_31
  have h2 : Exactly 2 2 := exactly_literal (by decide)
  have h3 : Exactly 3 3 := exactly_literal (by decide)
  have h4 : Exactly 4 4 := exactly_literal (by decide)
  have h5 : Exactly 5 5 := exactly_literal (by decide)
  have h12 : Exactly 12 12 := exactly_literal (by decide)
  have h12' : Exactly 12.0 12 := exactly_of_beq (by decide) (by decide +kernel)
  have h100 : Exactly 100 100 := exactly_literal (by decide)
  have h153 : Exactly 153 153 := exactly_literal (by decide)
  have h365 : Exactly 365 365 := exactly_literal (by decide)
  have h400 : Exactly 400 400 := exactly_literal (by decide)
  have h32045 : Exactly 32045 32045 := exactly_literal (by decide)
  unfold toJulian dayNumber daysBeforeMonth daysBeforeYear
  dsimp only
  have ha := (exactly_ofInt (n := 14 - month) (by omega)).floor_div h12' (by decide)
    (by omega) (by decide)
  have ha' : 0 ≤ (14 - month) / 12 ∧ (14 - month) / 12 ≤ 1 := by omega
  generalize floor (ofInt (14 - month) / 12.0) = a at ha ⊢
  generalize (14 - month) / 12 = i at ha ha' ⊢
  have hy := (exactly_ofInt (n := year + 4800) (by omega)).sub ha (by omega)
  have hy' : -2 ^ 31 ≤ year + 4800 - i ∧ year + 4800 - i < 2 ^ 31 := by omega
  generalize ofInt (year + 4800) - a = y at hy ⊢
  generalize year + 4800 - i = j at hy hy' ⊢
  have hm := (((exactly_ofInt (n := month) (by omega)).add (h12.mul ha (by omega))
    (by omega))).sub h3 (by omega)
  have hm' : -3 ≤ month + 12 * i - 3 ∧ month + 12 * i - 3 ≤ 21 := by omega
  generalize ofInt month + 12 * a - 3 = m at hm ⊢
  generalize month + 12 * i - 3 = k at hm hm' ⊢
  have hmonths := ((h153.mul hm (by omega)).add h2 (by omega)).floor_div h5 (by decide)
    (by omega) (by decide)
  have hyears := h365.mul hy (by omega)
  have hfour := hy.floor_div h4 (by decide) (by omega) (by decide)
  have hhundred := hy.floor_div h100 (by decide) (by omega) (by decide)
  have hfourHundred := hy.floor_div h400 (by decide) (by omega) (by decide)
  have hsum := ((((((exactly_ofInt (n := day) (by omega)).add hmonths (by omega)).add hyears
    (by omega)).add hfour (by omega)).sub hhundred (by omega)).add hfourHundred
    (by omega)).sub h32045 (by omega)
  convert hsum using 1
  omega

theorem IsDate.isCovered_iff (h : IsDate year month day) :
    IsCovered (dayNumber year month day) ↔ -2 ^ 31 ≤ year ∧ year + 4800 < 2 ^ 31 := by
  unfold IsCovered
  rw [← not_le, h.year_le_iff, h.year_le_iff]
  omega

theorem IsCovered.year_bounds (h : IsCovered n) :
    -2 ^ 31 ≤ (dateOfDay n).year ∧ (dateOfDay n).year + 4800 < 2 ^ 31 := by
  obtain ⟨hdate, hday⟩ := isDate_dateOfDay n
  rw [← hdate.isCovered_iff, hday]
  exact h

/-- The date of a Julian day is the one that its number stands for. -/
theorem ofJulian_eq (hx : Exactly x n) (h : IsCovered n) : ofJulian x = dateOfDay n := by
  have h2 : Exactly 2 2 := exactly_literal (by decide)
  have h3 : Exactly 3 3 := exactly_literal (by decide)
  have h4 : Exactly 4 4 := exactly_literal (by decide)
  have h5 : Exactly 5 5 := exactly_literal (by decide)
  have h10 : Exactly 10 10 := exactly_literal (by decide)
  have h12 : Exactly 12 12 := exactly_literal (by decide)
  have h100 : Exactly 100 100 := exactly_literal (by decide)
  have h153 : Exactly 153 153 := exactly_literal (by decide)
  have h1461 : Exactly 1461 1461 := exactly_literal (by decide)
  have h4800 : Exactly 4800 4800 := exactly_literal (by decide)
  have h32044 : Exactly 32044 32044 := exactly_literal (by decide)
  have h146097 : Exactly 146097 146097 := exactly_literal (by decide)
  have h1 : Exactly 1 1 := exactly_of_beq (by decide) (by decide +kernel)
  have hyear := h.year_bounds
  rw [isCovered_iff] at h
  -- Each number gives way to a variable as soon as its bounds are known, so that they are linear in the one before.
  unfold ofJulian
  unfold dateOfDay yearAndDay daysBeforeMonth at hyear ⊢
  dsimp only at hyear ⊢
  have ha := hx.add h32044 (by omega)
  have ha' : -784350575245 ≤ n + 32044 ∧ n + 32044 < 784352300000 := by omega
  generalize x + 32044 = a at ha ⊢
  generalize n + 32044 = t at ha ha' hyear ⊢
  have hb := ((h4.mul ha (by omega)).add h3 (by omega)).floor_div h146097 (by decide) (by omega) (by decide)
  have hcentury := @in_century t _ _ rfl rfl
  generalize floor ((4 * a + 3) / 146097) = b at hb ⊢
  generalize (4 * t + 3) / 146097 = i at hb hcentury hyear ⊢
  have hc := ha.sub ((h146097.mul hb (by omega)).floor_div h4 (by decide) (by omega) (by decide)) (by omega)
  generalize a - floor (146097 * b / 4) = c at hc ⊢
  generalize t - 146097 * i / 4 = j at hc hcentury hyear ⊢
  have hd := ((h4.mul hc (by omega)).add h3 (by omega)).floor_div h1461 (by decide) (by omega) (by decide)
  have hinYear := @in_year_of_century j _ _ rfl rfl
  generalize floor ((4 * c + 3) / 1461) = d at hd ⊢
  generalize (4 * j + 3) / 1461 = k at hd hinYear hyear ⊢
  have he := hc.sub ((h1461.mul hd (by omega)).floor_div h4 (by decide) (by omega) (by decide)) (by omega)
  generalize c - floor (1461 * d / 4) = e at he ⊢
  generalize j - 1461 * k / 4 = l at he hinYear hyear ⊢
  have hm := ((h5.mul he (by omega)).add h2 (by omega)).floor_div h153 (by decide) (by omega) (by decide)
  have hm' : 0 ≤ (5 * l + 2) / 153 ∧ (5 * l + 2) / 153 ≤ 11 := by omega
  have hday := (he.sub (((h153.mul hm (by omega)).add h2 (by omega)).floor_div h5 (by decide) (by omega) (by decide))
    (by omega)).add h1 (by omega)
  generalize floor ((5 * e + 2) / 153) = m at hm hday ⊢
  generalize (5 * l + 2) / 153 = q at hm hm' hday hyear ⊢
  have htenth := hm.floor_div h10 (by decide) (by omega) (by decide)
  have hmonth := (hm.add h3 (by omega)).sub (h12.mul htenth (by omega)) (by omega)
  have hyears := (((h100.mul hb (by omega)).add hd (by omega)).sub h4800 (by omega)).add htenth (by omega)
  rw [DateTime.mk.injEq, hday.toInt32_eq (by omega) (by omega), hmonth.toInt32_eq (by omega) (by omega),
    hyears.toInt32_eq (by omega) (by omega)]
  exact ⟨rfl, rfl, rfl, rfl, rfl, rfl⟩

/-! ### Date numbers -/

/-- The number of a date without a time. -/
theorem exactly_toNumber (h : IsDate year month day) (hlow : -2 ^ 31 ≤ year) (hhigh : year < 2 ^ 31) :
    Exactly (toNumber { year, month, day }) (year * 10000 + month * 100 + day) := by
  have hmonth := h.month_pos
  have hmonth' := h.month_le
  have hday := h.day_pos
  have hday' := h.day_le_31
  have h10000 : Exactly 10000.0 10000 := exactly_of_beq (by decide) (by decide +kernel)
  have h100 : Exactly 100.0 100 := exactly_of_beq (by decide) (by decide +kernel)
  have htime : Exactly ((ofInt 0 * 10000.0 + ofInt 0 * 100.0 + ofInt 0) / 1000000.0) 0 :=
    exactly_of_beq (by decide) (by decide +kernel)
  have hwhole := ((((exactly_ofInt (n := year) (by omega)).mul h10000 (by omega)).add
    ((exactly_ofInt (n := month) (by omega)).mul h100 (by omega)) (by omega))).add
    (exactly_ofInt (n := day) (by omega)) (by omega)
  have hsum := hwhole.add htime (by omega)
  rwa [add_zero] at hsum

/-- A date number with eight digits or more is read as the date that it is written for. -/
theorem ofNumber_eq (h : IsDate year month day) (hlow : 1000 ≤ year) (hhigh : year < 2 ^ 31)
    (hx : Exactly x (year * 10000 + month * 100 + day)) : ofNumber x = { year, month, day } := by
  have hmonth := h.month_pos
  have hmonth' := h.month_le
  have hday := h.day_pos
  have hday' := h.day_le_31
  have h0 : Exactly 0 0 := ⟨rfl, by rw [value_zero, Int.cast_zero]⟩
  have h100 : Exactly 100 100 := exactly_literal (by decide)
  have h10000 : Exactly 10000 10000 := exactly_literal (by decide)
  have h10000000 : Exactly 10000000 10000000 := exactly_of_beq (by decide) (by decide +kernel)
  have hwhole := hx.floor (by omega)
  have hfraction : ¬x - floor x > 0 := by
    rw [gt_iff_lt, h0.lt_iff (hx.sub hwhole (by omega)), sub_self]
    exact lt_irrefl 0
  generalize hn : year * 10000 + month * 100 + day = n at hx hwhole
  have hyears := (hwhole.floor_div h10000 (by decide) (by omega) (by decide)).toInt32_eq (by omega) (by omega)
  have hmonths := ((hwhole.remainder h10000 (by omega) (by decide) (by decide)).floor_div h100 (by decide) (by omega)
    (by decide)).toInt32_eq (by omega) (by omega)
  have hdays := (hwhole.remainder h100 (by omega) (by decide) (by decide)).toInt32_eq (by omega) (by omega)
  unfold ofNumber yearOf
  dsimp only
  rw [if_neg hfraction, if_pos ((h10000000.le_iff hwhole).mpr (by omega)), hyears, hmonths, hdays, DateTime.mk.injEq]
  omega

/-- From the year 1000 on, the date number of a Julian day is read as this day. -/
theorem exactly_julianOf_dateOf (hx : Exactly x n) (h : IsCovered n) (hyear : 1000 ≤ (dateOfDay n).year) :
    Exactly (julianOf (dateOf x)) n := by
  have hrange := isCovered_iff.mp h
  obtain ⟨hlow, hhigh⟩ := h.year_bounds
  obtain ⟨hdate, hday⟩ := isDate_dateOfDay n
  have hnumber := exactly_toNumber hdate hlow (by omega)
  have hread := ofNumber_eq hdate hyear (by omega) hnumber
  have hwritten : dateOf x = toNumber (dateOfDay n) := congrArg toNumber (ofJulian_eq (hx.round (by omega)) h)
  have hjulian := exactly_toJulian hdate hlow hhigh
  rw [hday] at hjulian
  unfold julianOf
  rw [hwritten]
  dsimp only
  exact hread ▸ hjulian

end
end Calendar

namespace Expr
open Binary

/-- A function of one argument that the context does not replace. -/
theorem result_call_plain {c : Context} {name : Text} {label : String} {f : Float → Float} {e : Expr} {x : Float}
    (hbuiltin : Builtin.find? (Text.lower name) = some (Builtin.plain label f)) (hname : Text.lower name ≠ ['i', 'f'])
    (hfunction : c.function? name = none) (hx : (e.eval c).result = .ok x) :
    ((call name [e]).eval c).result = .ok (f x) := by
  unfold eval at hx ⊢
  rw [evalWith, hfunction]
  dsimp only
  rw [if_neg hname, hbuiltin]
  show (_ >>= fun _ => evalArgs _ c [e] >>= _ : Evaluation Float).result = _
  rw [Evaluation.result_bind]
  show (evalArgs _ c [e] >>= _ : Evaluation Float).result = _
  rw [Evaluation.result_bind, evalArgs, Evaluation.result_bind, hx]
  rfl

end Expr

namespace Calendar
open Binary

/-- Julian days and dates correspond. Every covered day has a date of the calendar and is the Julian day of this date,
    every date in the covered years is the date of its Julian day, and from the year 1000 on the functions of
    worksheets lead from a day to its date number and back. -/
theorem corresponds :
    (∀ {x : Float} {n : ℤ}, Exactly x n → IsCovered n →
      IsDate (ofJulian x).year (ofJulian x).month (ofJulian x).day ∧
        Exactly (toJulian (ofJulian x).year (ofJulian x).month (ofJulian x).day) n) ∧
    (∀ {year month day : ℤ}, IsDate year month day → -2 ^ 31 ≤ year → year + 4800 < 2 ^ 31 →
      ofJulian (toJulian year month day) = { year, month, day }) ∧
    (∀ {c : Context} {e : Expr} {x : Float} {n : ℤ}, c.function? "date".toList = none →
      c.function? "jdays".toList = none → (e.eval c).result = .ok x → Exactly x n → IsCovered n →
      1000 ≤ (ofJulian x).year →
        ∃ w, ((Expr.call "jdays".toList [.call "date".toList [e]]).eval c).result = .ok w ∧ Exactly w n) := by
  refine ⟨fun {x n} hx h => ?_, fun {year month day} h hlow hhigh => ?_,
    fun {c e x n} hdate hjdays he hx h hyear => ?_⟩
  · obtain ⟨hdate, hday⟩ := isDate_dateOfDay n
    obtain ⟨hlow, hhigh⟩ := h.year_bounds
    have hjulian := exactly_toJulian hdate hlow hhigh
    rw [hday] at hjulian
    rw [ofJulian_eq hx h]
    exact ⟨hdate, hjulian⟩
  · have hcovered := h.isCovered_iff.mpr ⟨hlow, hhigh⟩
    rw [ofJulian_eq (exactly_toJulian h hlow hhigh) hcovered, dateOfDay_dayNumber h]
  · rw [ofJulian_eq hx h] at hyear
    exact ⟨_, Expr.result_call_plain rfl (by decide) hjdays (Expr.result_call_plain rfl (by decide) hdate he),
      exactly_julianOf_dateOf hx h hyear⟩

/-- The leap day of the year 2024. -/
theorem corresponds_leap_day :
    (Exactly 2460370 2460370 ∧ IsCovered 2460370 ∧ IsDate 2024 2 29) ∧
      IsDate (ofJulian 2460370).year (ofJulian 2460370).month (ofJulian 2460370).day ∧
      Exactly (toJulian (ofJulian 2460370).year (ofJulian 2460370).month (ofJulian 2460370).day) 2460370 ∧
      ofJulian (toJulian 2024 2 29) = { year := 2024, month := 2, day := 29 } ∧
      ∃ w, ((Expr.call "jdays".toList [.call "date".toList [.number 2460370 10]]).eval {}).result = .ok w ∧
        Exactly w 2460370 := by
  have hx : Exactly 2460370 2460370 := exactly_of_beq (by decide) (by decide +kernel)
  have hcovered : IsCovered 2460370 := isCovered_of_abs_le (by decide)
  have hdate : IsDate 2024 2 29 := ⟨by decide, by decide, by decide, by decide⟩
  have hyear : 1000 ≤ (ofJulian 2460370).year := by
    rw [ofJulian_eq hx hcovered]
    decide
  obtain ⟨hday, hnumber⟩ := corresponds.1 hx hcovered
  exact ⟨⟨hx, hcovered, hdate⟩, hday, hnumber, corresponds.2.1 hdate (by decide) (by decide),
    corresponds.2.2 rfl rfl rfl hx hcovered hyear⟩

end Calendar
end Worksheet
