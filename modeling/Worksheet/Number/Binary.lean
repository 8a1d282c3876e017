/-! Doubles as exact numbers. A finite double is a whole number of units of `2 ^ -1074`, so its whole part,
    its remainders and its decimal digits are exact arithmetic on natural numbers. `nearest` is the way
    back: the double nearest to a quotient, of two equally near ones the one with the even last bit. -/

namespace Worksheet.Binary

-- A power here is the one of the numbers themselves, whatever other instances are in scope.
attribute [local instance (high)] instPowNat

/-- The units of `2 ^ -1074` in 1. -/
def one : Nat := 2 ^ (1074 : Nat)

/-- The bits of positive infinity. -/
def infinityBits : Nat := 2047 * 2 ^ (52 : Nat)

/-! ### Rounding -/

/-- The natural number nearest to `num / den`; a tie goes to the even one. -/
def roundQuotient (num den : Nat) : Nat :=
  let q := num / den
  let r := num % den
  if 2 * r < den then q
  else if den < 2 * r then q + 1
  else q + q % 2

/-- The bits of the double nearest to `num / den` units. Consecutive doubles have consecutive bits, so a
    carry out of the fraction steps into the exponent by itself. -/
def nearestBits (num den : Nat) : Nat :=
  let exponent := (num / den).log2 - 52
  min infinityBits (exponent * 2 ^ (52 : Nat) + roundQuotient num (den * 2 ^ exponent))

/-- The double with the given sign and the given bits below the sign. -/
def withSign (negative : Bool) (bits : Nat) : Float :=
  Float.ofBits (UInt64.ofNat (if negative then 2 ^ (63 : Nat) + bits else bits))

/-- The double nearest to `± num / den`. -/
def ofRatio (negative : Bool) (num den : Nat) : Float := withSign negative (nearestBits (num * one) den)

/-- The double nearest to `± units`. -/
def ofUnits (negative : Bool) (units : Nat) : Float := withSign negative (nearestBits units 1)

/-- The double nearest to an integer. -/
def ofInt (n : Int) : Float := ofRatio (n < 0) n.natAbs 1

/-- The double nearest to a natural number. -/
def ofNat (n : Nat) : Float := ofRatio false n 1

def infinity : Float := withSign false infinityBits

def nan : Float := withSign false (infinityBits + 2 ^ (51 : Nat))

/-! ### Reading -/

/-- The sign bit. -/
def isNegative (x : Float) : Bool := 2 ^ (63 : Nat) ≤ x.toBits.toNat

/-- The units of a finite double, without its sign. -/
def units (x : Float) : Nat :=
  let fraction := x.toBits.toNat % 2 ^ (52 : Nat)
  let exponent := x.toBits.toNat / 2 ^ (52 : Nat) % 2 ^ (11 : Nat)
  if exponent = 0 then fraction else (2 ^ (52 : Nat) + fraction) * 2 ^ (exponent - 1)

/-- The whole number of ones in a finite double, without its sign. -/
def wholePart (x : Float) : Nat := units x / one

/-- The integer that a finite double rounds to toward zero. -/
def truncated (x : Float) : Int := if isNegative x then -(wholePart x : Int) else wholePart x

/-! ### Rounding to whole numbers -/

/-- A double that is whole, or is no number: the roundings below keep it. -/
def isWhole (x : Float) : Bool := !x.isFinite || units x % one == 0

/-- Toward zero. -/
def truncate (x : Float) : Float :=
  if isWhole x then x else ofUnits (isNegative x) (wholePart x * one)

/-- Away from zero. -/
def expand (x : Float) : Float :=
  if isWhole x then x else ofUnits (isNegative x) ((wholePart x + 1) * one)

def floor (x : Float) : Float := if isNegative x then expand x else truncate x

def ceil (x : Float) : Float := if isNegative x then truncate x else expand x

/-- Down from a half more, so that a half goes up. -/
def round (x : Float) : Float := floor (x + 0.5)

/-- The remainder of a division toward zero: exact, and with the sign of `x`. -/
def remainder (x y : Float) : Float :=
  if x.isNaN || y.isNaN || x.isInf || y == 0 then nan
  else if y.isInf then x
  else ofUnits (isNegative x) (units x % units y)

/-! ### Words -/

/-- `x` toward zero as a 64-bit word. Numbers beyond `9.2e18` give the extreme words, and what is no finite
    number gives 0. -/
def toWord (x : Float) : Int64 :=
  if !x.isFinite then 0
  else if x ≥ 9.2e18 then Int64.maxValue
  else if x ≤ -9.2e18 then Int64.minValue
  else Int64.ofInt (truncated x)

/-- The double nearest to a word. -/
def ofWord (w : Int64) : Float := ofInt w.toInt

/-- `x` toward zero as an integer of 32 bits; the least one stands for all that does not fit. -/
def toInt32 (x : Float) : Int :=
  let n := truncated x
  if x.isFinite && decide (-2 ^ (31 : Nat) ≤ n) && decide (n < 2 ^ (31 : Nat)) then n else -2 ^ (31 : Nat)

/-! ### Choices that keep the first of two -/

/-- The greater of two; the first one when they do not compare. -/
def greater (x y : Float) : Float := if x < y then y else x

/-- The smaller of two; the first one when they do not compare. -/
def smaller (x y : Float) : Float := if y < x then y else x

/-- `x` counts as true: it is a number other than zero. -/
def truthy (x : Float) : Bool := x != 0 && !x.isNaN

/-- The number of a truth value. -/
def ofBool (b : Bool) : Float := if b then 1 else 0

end Worksheet.Binary
