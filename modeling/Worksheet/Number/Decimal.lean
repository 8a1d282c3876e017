import Worksheet.Text
import Worksheet.Number.Binary

/-! Decimal numerals and doubles. A numeral is read as the nearest double, and a double is written with a
    given number of places as the nearest numeral, ties to the even last digit; both are exact. -/

namespace Worksheet

/-- `coefficient · 10 ^ exponent`. -/
structure Decimal where
  coefficient : Nat
  exponent : Int

namespace Decimal

-- A power here is the one of the numbers themselves, whatever other instances are in scope.
attribute [local instance (high)] instPowNat

/-! ### Reading -/

/-- The number of decimal digits of `n`; none for 0. -/
def digitCount (n : Nat) : Nat := if n = 0 then 0 else (Text.ofNat n).length

/-- The double nearest to a decimal. One of 310 digits is beyond every double and one that begins at the
    330th place is nearest to 0, so larger exponents need no powers. -/
def toFloat (d : Decimal) : Float :=
  let top := digitCount d.coefficient + d.exponent
  if d.coefficient = 0 || top < -330 then 0
  else if 310 < top then Binary.infinity
  else if 0 ≤ d.exponent then Binary.ofRatio false (d.coefficient * 10 ^ d.exponent.toNat) 1
  else Binary.ofRatio false d.coefficient (10 ^ (-d.exponent).toNat)

/-- The sign at the head of an exponent. -/
def isSign (c : Char) : Bool := c == '+' || c == '-'

/-- The exponent at the head of a text, with the number of characters that write it: `e` or `E`, an
    optional sign and at least one digit. -/
def exponent? (t : Text) : Option (Int × Nat) :=
  match t with
  | [] => none
  | e :: t =>
    if e == 'e' || e == 'E' then
      let sign := (t.take 1).filter isSign
      let digits := (t.drop sign.length).takeWhile Byte.isDigit
      if digits.isEmpty then none
      else some (if sign = ['-'] then -(Text.toNat digits : Int) else Text.toNat digits, 1 + sign.length + digits.length)
    else none

/-- The numeral at the head of a text: digits, a point and digits, and an exponent, each if it is there. -/
def ofNumeral (t : Text) : Decimal :=
  let whole := t.takeWhile Byte.isDigit
  let rest := t.dropWhile Byte.isDigit
  let point := (rest.take 1).filter (· == '.')
  let fraction := if point.isEmpty then [] else (rest.drop 1).takeWhile Byte.isDigit
  let shift := ((exponent? (rest.drop (point.length + fraction.length))).map (·.1)).getD 0
  ⟨Text.toNat (whole ++ fraction), shift - fraction.length⟩

/-- The whole text is a numeral: it has a digit before the exponent, and an `e` has digits behind it. -/
def isNumeral (t : Text) : Bool :=
  let whole := t.takeWhile Byte.isDigit
  let rest := t.dropWhile Byte.isDigit
  let point := (rest.take 1).filter (· == '.')
  let fraction := if point.isEmpty then [] else (rest.drop 1).takeWhile Byte.isDigit
  let tail := rest.drop (point.length + fraction.length)
  !(whole.isEmpty && fraction.isEmpty) && (tail.isEmpty || (exponent? tail).any (·.2 == tail.length))

/-- The double that a numeral denotes. -/
def value (t : Text) : Float := (ofNumeral t).toFloat

/-! ### Digits of a double -/

/-- `n` with zeros in front up to `width` digits. -/
def padded (width n : Nat) : Text :=
  let digits := Text.ofNat n
  List.replicate (width - digits.length) '0' ++ digits

/-- The digits before and behind the point of the numeral with `places` places that is nearest to
    `units / one`. -/
def fixedDigits (places units : Nat) : Text × Text :=
  let scaled := Binary.roundQuotient (units * 10 ^ places) Binary.one
  (Text.ofNat (scaled / 10 ^ places), if places = 0 then [] else padded places (scaled % 10 ^ places))

/-- The greatest `e` with `10 ^ e ≤ units / one`, for a positive number of units. -/
def order (units : Nat) : Int :=
  if Binary.one ≤ units then digitCount (units / Binary.one) - 1
  else -(digitCount ((Binary.one + units - 1) / units - 1) : Int)

/-- `places + 1` leading digits of `units / one`, rounded to nearest, with the exponent of the first one. -/
def leadingDigits (places units : Nat) : Nat × Int :=
  if units = 0 then (0, 0)
  else
    let e := order units
    let shift := places - e
    let rounded :=
      if 0 ≤ shift then Binary.roundQuotient (units * 10 ^ shift.toNat) Binary.one
      else Binary.roundQuotient units (Binary.one * 10 ^ (-shift).toNat)
    if rounded = 10 ^ (places + 1) then (10 ^ places, e + 1) else (rounded, e)

end Decimal
end Worksheet
