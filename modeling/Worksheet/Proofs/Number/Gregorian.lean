import Mathlib.Data.Int.Init
import Mathlib.Tactic.IntervalCases
import Mathlib.Tactic.Linarith
import Worksheet.Number.Calendar

/-! The proleptic Gregorian calendar in integers. Days are counted in years that begin in March, so that a leap day is
    the last day of its year: a count of days stands for one day of one month of one such year, and the formulas of
    the Julian days give this day, whatever the count. -/

namespace Worksheet.Calendar

/-! ### Dates -/

def IsLeap (year : ℤ) : Prop := year % 4 = 0 ∧ (year % 100 ≠ 0 ∨ year % 400 = 0)

instance (year : ℤ) : Decidable (IsLeap year) := inferInstanceAs (Decidable (_ ∧ _))

/-- The days of a month, 1 being January. -/
def monthLength (year month : ℤ) : ℤ :=
  if month = 2 then if IsLeap year then 29 else 28
  else if month = 4 ∨ month = 6 ∨ month = 9 ∨ month = 11 then 30
  else 31

/-- A date of the proleptic Gregorian calendar. -/
structure IsDate (year month day : ℤ) : Prop where
  month_pos : 1 ≤ month
  month_le : month ≤ 12
  day_pos : 1 ≤ day
  day_le : day ≤ monthLength year month

/-! ### Years that begin in March -/

/-- The days before the first of March of a year, from the year 0 on. -/
def daysBeforeYear (year : ℤ) : ℤ := 365 * year + year / 4 - year / 100 + year / 400

/-- The days of a year before a month, 0 being March. -/
def daysBeforeMonth (month : ℤ) : ℤ := (153 * month + 2) / 5

/-- The day `count` days after the first one is day `day` of a month of a year, all of them counted from 0. -/
structure Stands (count year month day : ℤ) : Prop where
  count_eq : count = daysBeforeYear year + daysBeforeMonth month + day
  month_nonneg : 0 ≤ month
  month_le : month ≤ 11
  day_nonneg : 0 ≤ day
  in_month : daysBeforeMonth month + day < daysBeforeMonth (month + 1)
  in_year : count < daysBeforeYear (year + 1)

theorem daysBeforeYear_mono {y z : ℤ} (h : y ≤ z) : daysBeforeYear y ≤ daysBeforeYear z := by
  unfold daysBeforeYear
  omega

/-- A day lies in one year only. -/
theorem year_unique {count y z : ℤ} (hy : daysBeforeYear y ≤ count ∧ count < daysBeforeYear (y + 1))
    (hz : daysBeforeYear z ≤ count ∧ count < daysBeforeYear (z + 1)) : y = z := by
  rcases lt_trichotomy y z with h | h | h
  · have hnext := daysBeforeYear_mono (Int.add_one_le_of_lt h)
    omega
  · exact h
  · have hnext := daysBeforeYear_mono (Int.add_one_le_of_lt h)
    omega

/-- A day of a year lies in one month only. -/
theorem month_eq {day m : ℤ} (hlow : daysBeforeMonth m ≤ day) (hhigh : day < daysBeforeMonth (m + 1)) :
    m = (5 * day + 2) / 153 := by
  unfold daysBeforeMonth at hlow hhigh
  omega

theorem daysBeforeMonth_nonneg {m : ℤ} (h : 0 ≤ m) : 0 ≤ daysBeforeMonth m := by
  unfold daysBeforeMonth
  omega

theorem Stands.unique {count y z m m' d d' : ℤ} (h : Stands count y m d) (h' : Stands count z m' d') :
    y = z ∧ m = m' ∧ d = d' := by
  have hm := daysBeforeMonth_nonneg h.month_nonneg
  have hm' := daysBeforeMonth_nonneg h'.month_nonneg
  have hyear : y = z := year_unique ⟨by linarith [h.count_eq, h.day_nonneg], h.in_year⟩
    ⟨by linarith [h'.count_eq, h'.day_nonneg], h'.in_year⟩
  subst hyear
  have hday : daysBeforeMonth m + d = daysBeforeMonth m' + d' := by linarith [h.count_eq, h'.count_eq]
  have hmonth : m = m' := by
    rw [month_eq (by linarith [h.day_nonneg]) h.in_month, month_eq (by linarith [h'.day_nonneg]) h'.in_month, hday]
  subst hmonth
  exact ⟨rfl, rfl, by linarith⟩

/-- A day lies in a century, and its number there is below the length of the century. -/
theorem in_century {count b c : ℤ} (hb : b = (4 * count + 3) / 146097) (hc : c = count - 146097 * b / 4) :
    count = 36524 * b + b / 4 + c ∧ 0 ≤ c ∧ 4 * c ≤ 146093 + b % 4 := by
  have hdays : 146097 * b / 4 = 36524 * b + b / 4 := by omega
  have hquotient : 146097 * b ≤ 4 * count + 3 ∧ 4 * count + 3 ≤ 146097 * b + 146096 := by omega
  -- From here on the two bounds stand for the quotient, so that all is linear in `b`.
  clear hb
  rw [hdays] at hc
  omega

/-- A day of a century lies in a year, and its number there is below the length of the year. -/
theorem in_year_of_century {c d e : ℤ} (hd : d = (4 * c + 3) / 1461) (he : e = c - 1461 * d / 4) :
    c = 365 * d + d / 4 + e ∧ 0 ≤ e ∧ 4 * e ≤ 1457 + d % 4 := by
  have hdays : 1461 * d / 4 = 365 * d + d / 4 := by omega
  have hquotient : 1461 * d ≤ 4 * c + 3 ∧ 4 * c + 3 ≤ 1461 * d + 1460 := by omega
  clear hd
  rw [hdays] at he
  omega

theorem daysBeforeYear_century (b : ℤ) {d : ℤ} (hlow : 0 ≤ d) (hhigh : d ≤ 99) :
    daysBeforeYear (100 * b + d) = 36524 * b + b / 4 + (365 * d + d / 4) := by
  have hfour : (100 * b + d) / 4 = 25 * b + d / 4 := by omega
  have hhundred : (100 * b + d) / 100 = b := by omega
  have hfourHundred : (100 * b + d) / 400 = b / 4 := by omega
  unfold daysBeforeYear
  rw [hfour, hhundred, hfourHundred]
  omega

/-- The year of a day, and the number of the day there. -/
def yearAndDay (count : ℤ) : ℤ × ℤ :=
  let b := (4 * count + 3) / 146097
  let c := count - 146097 * b / 4
  let d := (4 * c + 3) / 1461
  (100 * b + d, c - 1461 * d / 4)

theorem yearAndDay_spec (count : ℤ) : count = daysBeforeYear (yearAndDay count).1 + (yearAndDay count).2 ∧
    0 ≤ (yearAndDay count).2 ∧ count < daysBeforeYear ((yearAndDay count).1 + 1) := by
  unfold yearAndDay
  dsimp only
  generalize hb : (4 * count + 3) / 146097 = b
  generalize hc : count - 146097 * b / 4 = c
  generalize hd : (4 * c + 3) / 1461 = d
  generalize he : c - 1461 * d / 4 = e
  obtain ⟨hcount, hcpos, hcentury⟩ := in_century hb.symm hc.symm
  obtain ⟨hday, hepos, hyear⟩ := in_year_of_century hd.symm he.symm
  have hd : 0 ≤ d ∧ d ≤ 99 := by omega
  rw [daysBeforeYear_century b hd.1 hd.2]
  refine ⟨by omega, hepos, ?_⟩
  -- The last year of a century is followed by the first one of the next century.
  rcases Int.lt_or_eq_of_le hd.2 with hlast | hlast
  · rw [add_assoc, daysBeforeYear_century b (by omega) (by omega)]
    omega
  · have hnext : 100 * b + d + 1 = 100 * (b + 1) + 0 := by omega
    rw [hnext, daysBeforeYear_century (b + 1) le_rfl (by omega)]
    omega

/-- A day of a year lies in a month. -/
theorem in_month_of_year {e : ℤ} (hlow : 0 ≤ e) (hhigh : e ≤ 365) :
    (0 ≤ (5 * e + 2) / 153 ∧ (5 * e + 2) / 153 ≤ 11) ∧ daysBeforeMonth ((5 * e + 2) / 153) ≤ e ∧
      e < daysBeforeMonth ((5 * e + 2) / 153 + 1) := by
  unfold daysBeforeMonth
  omega

/-! ### Dates as days -/

/-- The day of a date, where the day 0 is 24 November of the year -4713. -/
def dayNumber (year month day : ℤ) : ℤ :=
  let a := (14 - month) / 12
  day + daysBeforeMonth (month + 12 * a - 3) + daysBeforeYear (year + 4800 - a) - 32045

/-- The date of a day. -/
def dateOfDay (n : ℤ) : DateTime :=
  let (y, e) := yearAndDay (n + 32044)
  let m := (5 * e + 2) / 153
  { day := e - daysBeforeMonth m + 1
    month := m + 3 - 12 * (m / 10)
    year := y - 4800 + m / 10 }

theorem yearLength_eq (year : ℤ) :
    daysBeforeYear (year + 1) - daysBeforeYear year = if IsLeap (year + 1) then 366 else 365 := by
  unfold daysBeforeYear
  split
  · rename_i hleap
    unfold IsLeap at hleap
    omega
  · rename_i hleap
    unfold IsLeap at hleap
    omega

theorem isLeap_sub (year : ℤ) : IsLeap (year - 4800) ↔ IsLeap year := by
  unfold IsLeap
  omega

/-- Every month but the last one, February, ends where the next one begins. -/
theorem monthLength_eq (year : ℤ) {month : ℤ} (hlow : 0 ≤ month) (hhigh : month ≤ 10) :
    monthLength year (month + 3 - 12 * (month / 10)) = daysBeforeMonth (month + 1) - daysBeforeMonth month := by
  interval_cases month <;> rfl

/-- A day is in its month if it comes before the next month and before the next year. -/
theorem lt_monthLength_iff (year : ℤ) {month day : ℤ} (hlow : 0 ≤ month) (hhigh : month ≤ 11) :
    day < monthLength (year - 4800 + month / 10) (month + 3 - 12 * (month / 10)) ↔
      daysBeforeMonth month + day < daysBeforeMonth (month + 1) ∧
        daysBeforeYear year + daysBeforeMonth month + day < daysBeforeYear (year + 1) := by
  have hyear := yearLength_eq year
  rcases Int.lt_or_eq_of_le hhigh with hmonth | rfl
  · rw [monthLength_eq _ hlow (by omega)]
    have hless : daysBeforeMonth (month + 1) ≤ 337 := by
      unfold daysBeforeMonth
      omega
    split at hyear <;> omega
  · have hleap : IsLeap (year - 4800 + 11 / 10) ↔ IsLeap (year + 1) := by
      rw [show year - 4800 + 11 / 10 = year + 1 - 4800 by omega, isLeap_sub]
    have hfebruary : monthLength (year - 4800 + 11 / 10) (11 + 3 - 12 * (11 / 10)) =
        if IsLeap (year + 1) then 29 else 28 := by
      unfold monthLength
      rw [if_pos (by omega)]
      exact if_congr hleap rfl rfl
    rw [hfebruary]
    unfold daysBeforeMonth
    split at hyear <;> rename_i h <;> simp only [h, if_true, if_false] <;> omega

theorem dayNumber_eq (year day : ℤ) {month : ℤ} (hlow : 0 ≤ month) (hhigh : month ≤ 11) :
    dayNumber (year - 4800 + month / 10) (month + 3 - 12 * (month / 10)) (day + 1) =
      daysBeforeYear year + daysBeforeMonth month + day - 32044 := by
  have hshift : (14 - (month + 3 - 12 * (month / 10))) / 12 = month / 10 := by omega
  have hyear : year - 4800 + month / 10 + 4800 - month / 10 = year := by omega
  have hmonth : month + 3 - 12 * (month / 10) + 12 * (month / 10) - 3 = month := by omega
  unfold dayNumber
  rw [hshift]
  dsimp only
  rw [hyear, hmonth]
  omega

/-- A day of a month of a year that begins in March is a date, and the other way round. -/
theorem stands_iff {count year month day : ℤ} (hlow : 0 ≤ month) (hhigh : month ≤ 11) :
    Stands count year month day ↔
      IsDate (year - 4800 + month / 10) (month + 3 - 12 * (month / 10)) (day + 1) ∧
        count = dayNumber (year - 4800 + month / 10) (month + 3 - 12 * (month / 10)) (day + 1) + 32044 := by
  rw [dayNumber_eq year day hlow hhigh]
  have hlength := @lt_monthLength_iff year month day hlow hhigh
  constructor
  · intro h
    have hcount := h.count_eq
    have hday := hlength.mpr ⟨h.in_month, hcount ▸ h.in_year⟩
    exact ⟨⟨by omega, by omega, by linarith [h.day_nonneg], hday⟩, by omega⟩
  · rintro ⟨hdate, hcount⟩
    have hcount : count = daysBeforeYear year + daysBeforeMonth month + day := by omega
    obtain ⟨hmonth, hyear⟩ := hlength.mp hdate.day_le
    exact ⟨hcount, hlow, hhigh, by linarith [hdate.day_pos], hmonth, hcount ▸ hyear⟩

/-- The formulas for the date of a day find the one that it stands for. -/
theorem stands_dateOfDay (n : ℤ) : ∃ year month day, Stands (n + 32044) year month day ∧
    dateOfDay n =
      { year := year - 4800 + month / 10, month := month + 3 - 12 * (month / 10), day := day + 1 } := by
  obtain ⟨hcount, hpos, hnext⟩ := yearAndDay_spec (n + 32044)
  unfold dateOfDay
  generalize yearAndDay (n + 32044) = p at hcount hpos hnext
  obtain ⟨year, e⟩ := p
  dsimp only at hcount hpos hnext
  have hlength := yearLength_eq year
  have hday : e ≤ 365 := by split at hlength <;> omega
  obtain ⟨hmonth, hlow, hhigh⟩ := in_month_of_year hpos hday
  exact ⟨year, (5 * e + 2) / 153, e - daysBeforeMonth ((5 * e + 2) / 153),
    ⟨by omega, hmonth.1, hmonth.2, by omega, by omega, hnext⟩, rfl⟩

/-- Every day has a date, and is the day of its date. -/
theorem isDate_dateOfDay (n : ℤ) : IsDate (dateOfDay n).year (dateOfDay n).month (dateOfDay n).day ∧
    dayNumber (dateOfDay n).year (dateOfDay n).month (dateOfDay n).day = n := by
  obtain ⟨year, month, day, hstands, hdate⟩ := stands_dateOfDay n
  rw [hdate]
  obtain ⟨hvalid, hcount⟩ := (stands_iff hstands.month_nonneg hstands.month_le).mp hstands
  exact ⟨hvalid, by dsimp only; omega⟩

/-- A date stands for the day that is its number. -/
theorem IsDate.stands {year month day : ℤ} (h : IsDate year month day) :
    Stands (dayNumber year month day + 32044) (year + 4800 - (14 - month) / 12) (month + 12 * ((14 - month) / 12) - 3)
      (day - 1) := by
  have hlow := h.month_pos
  have hhigh := h.month_le
  generalize hshift : (14 - month) / 12 = a
  have hmonth : (month + 12 * a - 3) / 10 = a := by omega
  have hdate : year + 4800 - a - 4800 + a = year ∧ month + 12 * a - 3 + 3 - 12 * a = month ∧ day - 1 + 1 = day := by
    omega
  rw [stands_iff (by omega) (by omega), hmonth, hdate.1, hdate.2.1, hdate.2.2]
  exact ⟨h, rfl⟩

/-- The date of the day of a date is this date. -/
theorem dateOfDay_dayNumber {year month day : ℤ} (h : IsDate year month day) :
    dateOfDay (dayNumber year month day) = { year, month, day } := by
  obtain ⟨y, m, d, hstands, hdate⟩ := stands_dateOfDay (dayNumber year month day)
  have hlow := h.month_pos
  have hhigh := h.month_le
  obtain ⟨rfl, rfl, rfl⟩ := hstands.unique h.stands
  rw [hdate, DateTime.mk.injEq]
  omega

example : dayNumber 2000 1 1 = 2451545 := by decide

/-! ### The days of years -/

/-- The first day of a year stands in the tenth month of the year that began in March. -/
theorem dayNumber_first (year : ℤ) : dayNumber year 1 1 = daysBeforeYear (year + 4799) + 306 - 32044 := by
  have hfirst := @dayNumber_eq (year + 4799) 0 10 (by omega) (by omega)
  rw [show year + 4799 - 4800 + 10 / 10 = year by omega, add_zero] at hfirst
  exact hfirst

/-- The day of a date is none before the first one of its year, and comes before the next year. -/
theorem IsDate.in_year {year month day : ℤ} (h : IsDate year month day) :
    dayNumber year 1 1 ≤ dayNumber year month day ∧ dayNumber year month day < dayNumber (year + 1) 1 1 := by
  have hlow := h.month_pos
  have hhigh := h.month_le
  obtain ⟨hcount, -, -, hday, hin, hnext⟩ := h.stands
  rw [dayNumber_first, dayNumber_first, show year + 1 + 4799 = year + 4799 + 1 by omega]
  have hlength := yearLength_eq (year + 4799)
  rcases lt_or_ge month 3 with hearly | hlate
  · rw [show (14 - month) / 12 = 1 by omega] at hcount hin hnext
    rw [show year + 4800 - 1 = year + 4799 by omega] at hcount hnext
    unfold daysBeforeMonth at hcount hin
    omega
  · rw [show (14 - month) / 12 = 0 by omega] at hcount hin hnext
    rw [show year + 4800 - 0 = year + 4799 + 1 by omega] at hcount hnext
    unfold daysBeforeMonth at hcount hin
    split at hlength <;> omega

theorem dayNumber_mono {y z : ℤ} (h : y ≤ z) : dayNumber y 1 1 ≤ dayNumber z 1 1 := by
  have hbefore := @daysBeforeYear_mono (y + 4799) (z + 4799) (by omega)
  rw [dayNumber_first, dayNumber_first]
  omega

/-- The first day of a year comes no later than a date if the year does. -/
theorem IsDate.year_le_iff {year month day : ℤ} (h : IsDate year month day) (z : ℤ) :
    dayNumber z 1 1 ≤ dayNumber year month day ↔ z ≤ year := by
  obtain ⟨hfirst, hnext⟩ := h.in_year
  constructor
  · intro hle
    by_contra hless
    have hlater := @dayNumber_mono (year + 1) z (by omega)
    omega
  · intro hle
    exact (dayNumber_mono hle).trans hfirst

end Worksheet.Calendar
