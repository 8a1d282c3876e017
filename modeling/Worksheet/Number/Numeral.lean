import Worksheet.Number.Decimal

/-! Written numbers. A `Numeral` holds the parts of a decimal numeral, and the choices of a display (zeros
    left out, thousands grouped, no negative zero) are operations on the parts; `render` alone puts the
    characters together. -/

namespace Worksheet

/-- A decimal numeral in parts. -/
structure Numeral where
  negative : Bool
  /-- A `$` stands before the digits. -/
  dollar : Bool := false
  /-- Digits before the point; `inf` in place of them for a number beyond every double. -/
  whole : Text
  /-- Commas stand between the thousands of the whole part. -/
  grouped : Bool := false
  /-- Digits behind the point; there is no point when there are none. -/
  fraction : Text
  exponent : Option Int := none
  /-- A `%` stands behind the number. -/
  percent : Bool := false

namespace Numeral

/-! ### Parts -/

/-- The number of places that is really written. -/
def boundedPlaces (places : Int) : Nat := min places.toNat 100

/-- `x` with `places` places. -/
def fixed (x : Float) (places : Int) : Numeral :=
  if x.isFinite then
    let digits := Decimal.fixedDigits (boundedPlaces places) (Binary.units x)
    { negative := Binary.isNegative x, whole := digits.1, fraction := digits.2 }
  else { negative := Binary.isNegative x, whole := if x.isNaN then "nan".toList else "inf".toList, fraction := [] }

/-- A finite `x` with one digit before the point, `places` places and an exponent. -/
def scientific (x : Float) (places : Int) : Numeral :=
  let p := boundedPlaces places
  let leading := Decimal.leadingDigits p (Binary.units x)
  let digits := Decimal.padded (p + 1) leading.1
  { negative := Binary.isNegative x, whole := digits.take 1, fraction := digits.drop 1, exponent := some leading.2 }

/-- Leaves out the zeros at the end of the fraction. -/
def stripZeros (n : Numeral) : Numeral := { n with fraction := (n.fraction.reverse.dropWhile (· == '0')).reverse }

/-- Groups the thousands, unless the numeral has an exponent. -/
def group (n : Numeral) : Numeral := { n with grouped := n.exponent.isNone }

/-- All digits before the exponent are zero. -/
def isZero (n : Numeral) : Bool := n.whole.all (· == '0') && n.fraction.all (· == '0')

/-- A zero has no sign. -/
def dropNegativeZero (n : Numeral) : Numeral := { n with negative := n.negative && !n.isZero }

/-- At least `count` places, with zeros added behind, unless the numeral has an exponent. -/
def padFraction (count : Nat) (n : Numeral) : Numeral :=
  if n.exponent.isNone then { n with fraction := n.fraction ++ List.replicate (count - n.fraction.length) '0' } else n

/-! ### Text -/

/-- The digits in groups of three from the right. -/
def groupThousands (digits : Text) : Text :=
  digits.foldr (fun c (acc : Text × Nat) =>
    if acc.2 ≠ 0 && acc.2 % 3 == 0 then (c :: ',' :: acc.1, acc.2 + 1) else (c :: acc.1, acc.2 + 1)) ([], 0) |>.1

/-- An exponent with its sign. -/
def renderExponent (e : Int) : Text :=
  'e' :: (if e < 0 then '-' else '+') :: Text.ofNat e.natAbs

/-- The characters of a numeral. -/
def render (n : Numeral) : Text :=
  (if n.negative then ['-'] else []) ++ (if n.dollar then ['$'] else [])
    ++ (if n.grouped then groupThousands n.whole else n.whole)
    ++ (if n.fraction.isEmpty then [] else '.' :: n.fraction)
    ++ (match n.exponent with | none => [] | some e => renderExponent e)
    ++ (if n.percent then ['%'] else [])

/-- The size of what the numeral shows, signs aside. -/
def magnitude (n : Numeral) : Float :=
  if n.whole = "inf".toList then Binary.infinity
  else Decimal.value (n.whole ++ if n.fraction.isEmpty then [] else '.' :: n.fraction)

end Numeral
end Worksheet
