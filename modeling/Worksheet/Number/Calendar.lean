import Worksheet.Number.Binary

/-! Dates as numbers `YYYYMMDD.hhmmss` and as Julian days of the proleptic Gregorian calendar. -/

namespace Worksheet

/-- A day with a time of day. -/
structure DateTime where
  year : Int := 0
  month : Int := 0
  day : Int := 0
  hour : Int := 0
  minute : Int := 0
  second : Int := 0
  deriving DecidableEq, Repr

namespace Calendar
open Binary

/-! ### Julian days -/

/-- The Julian day of a date. -/
def toJulian (year month day : Int) : Float :=
  let a := floor (ofInt (14 - month) / 12.0)
  let y := ofInt (year + 4800) - a
  let m := ofInt month + 12 * a - 3
  ofInt day + floor ((153 * m + 2) / 5) + 365 * y + floor (y / 4) - floor (y / 100) + floor (y / 400) - 32045

/-- The date of a Julian day. -/
def ofJulian (julian : Float) : DateTime :=
  let a := julian + 32044
  let b := floor ((4 * a + 3) / 146097)
  let c := a - floor (146097 * b / 4)
  let d := floor ((4 * c + 3) / 1461)
  let e := c - floor (1461 * d / 4)
  let m := floor ((5 * e + 2) / 153)
  { day := toInt32 (e - floor ((153 * m + 2) / 5) + 1)
    month := toInt32 (m + 3 - 12 * floor (m / 10))
    year := toInt32 (100 * b + d - 4800 + floor (m / 10)) }

/-! ### Date numbers -/

/-- The year of a whole date number. With fewer than eight digits its year has two: from 50 on in the
    twentieth century, else in the next one. -/
def yearOf (whole : Float) : Int :=
  let y := toInt32 (floor (whole / 10000))
  if whole ≥ 10000000 then y else if 50 ≤ y then 1900 + y else 2000 + y

/-- The date and time that a date number denotes. -/
def ofNumber (x : Float) : DateTime :=
  let whole := floor x
  let fraction := x - whole
  let date : DateTime :=
    { year := yearOf whole
      month := toInt32 (floor (remainder whole 10000 / 100))
      day := toInt32 (remainder whole 100) }
  if fraction > 0 then
    let t := round (fraction * 1000000)
    { date with
      hour := toInt32 (floor (t / 10000))
      minute := toInt32 (floor (remainder t 10000 / 100))
      second := toInt32 (remainder t 100) }
  else date

/-- The date number of a date and time. -/
def toNumber (d : DateTime) : Float :=
  let whole := ofInt d.year * 10000.0 + ofInt d.month * 100.0 + ofInt d.day
  whole + (ofInt d.hour * 10000.0 + ofInt d.minute * 100.0 + ofInt d.second) / 1000000.0

/-- The Julian day of a date number. -/
def julianOf (x : Float) : Float :=
  let d := ofNumber x
  toJulian d.year d.month d.day

/-- The date number of a Julian day. -/
def dateOf (julian : Float) : Float := toNumber (ofJulian (round julian))

/-- The day of the week, 1 for a Sunday. -/
def weekday (x : Float) : Float := remainder (julianOf x + 1) 7.0 + 1

/-- The hours of a time with their fraction. -/
def hours (x : Float) : Float :=
  let d := ofNumber x
  ofInt d.hour + ofInt d.minute / 60.0 + ofInt d.second / 3600.0

/-- Hours with a fraction as the time part of a date number. -/
def timeOf (x : Float) : Float :=
  let whole := floor x
  let minutes := (x - whole) * 60
  let wholeMinutes := floor minutes
  let seconds := round ((minutes - wholeMinutes) * 60)
  let (seconds, wholeMinutes) := if seconds ≥ 60 then (seconds - 60, wholeMinutes + 1) else (seconds, wholeMinutes)
  let (wholeMinutes, whole) := if wholeMinutes ≥ 60 then (wholeMinutes - 60, whole + 1) else (wholeMinutes, whole)
  (whole * 10000 + wholeMinutes * 100 + seconds) / 1000000

end Calendar
end Worksheet
