import Worksheet.Number.Numeral
import Worksheet.Settings

/-! How a value is written: which of the notations applies, and how money, percentages and other bases
    look. -/

namespace Worksheet

/-- The functions of the mathematical library that an exponent is found with. -/
structure Libm where
  log10 : Float → Float
  pow : Float → Float → Float

/-- Those of the machine. -/
def Libm.native : Libm := ⟨Float.log10, Float.pow⟩

/-- What is written for a value. -/
inductive Written where
  | nan
  /-- `Infinity`, with a `%` behind it when it is a percentage beyond every double. -/
  | infinite (negative percent : Bool)
  /-- A whole number in a base other than ten. -/
  | based (negative : Bool) (digits : Text) (base : Nat)
  | decimal (n : Numeral)

namespace Written

/-- The digits of `n` in `base`; a single 0 for 0. -/
def baseDigits (base n : Nat) : Text :=
  go n n []
where
  /-- Puts the digits of `n` before `acc`; `fuel` bounds their number, which `n` itself does. -/
  go (fuel n : Nat) (acc : Text) : Text :=
    let acc := Byte.ofDigit (n % base) :: acc
    match fuel with
    | 0 => acc
    | fuel + 1 => if n / base = 0 then acc else go fuel (n / base) acc

def render : Written → Text
  | nan => "NaN".toList
  | infinite negative percent =>
    (if negative then "-Infinity".toList else "Infinity".toList) ++ (if percent then ['%'] else [])
  | based negative digits base => (if negative then ['-'] else []) ++ digits ++ '#' :: Text.ofNat base
  | decimal n => n.render

/-! ### Notations -/

/-- `x` at least `10 ^ 14`, or below `10 ^ -14` and not 0, takes an exponent also in positional notation. -/
def positional (x : Float) (places : Int) : Numeral :=
  let a := x.abs
  if a ≥ 1e14 || (a < 1e-14 && x != 0) then Numeral.scientific x places else Numeral.fixed x places

/-- The multiple of 3 below the decimal order of `x`. -/
def engineeringExponent (x : Float) (libm : Libm := .native) : Int :=
  Binary.toInt32 (Binary.floor (Binary.floor (libm.log10 x.abs) / 3.0)) * 3

/-- `x` over `10 ^ exponent`, with that exponent. -/
def engineeringWith (x : Float) (places exponent : Int) (libm : Libm := .native) : Numeral :=
  { Numeral.fixed (x / libm.pow 10.0 (Binary.ofInt exponent)) places with exponent := some exponent }

/-- An exponent that is a multiple of 3; one more step when rounding fills the thousands. -/
def engineering (x : Float) (places : Int) (libm : Libm := .native) : Numeral :=
  if x == 0 then Numeral.fixed 0.0 places
  else
    let e := engineeringExponent x libm
    let n := engineeringWith x places e libm
    if n.magnitude ≥ 1000.0 then engineeringWith x places (e + 3) libm else n

/-- A finite number in decimal. -/
def numeral (x : Float) (places : Int) (stripZeros : Bool) (notated : Notation) (groupDigits : Bool)
    (libm : Libm := .native) : Numeral :=
  let n := match notated with
    | .scientific => Numeral.scientific x places
    | .engineering => engineering x places libm
    | .positional => positional x places
  let n := if stripZeros then n.stripZeros else n
  let n := if groupDigits then n.group else n
  n.dropNegativeZero

/-- A number shows in `base` if it is whole and exact. -/
def hasBase (x : Float) (base : Nat) : Bool :=
  base != 10 && decide (2 ≤ base) && decide (base ≤ 36) && x == Binary.truncate x && x.abs < 9.0e15

/-- A number by itself. -/
def number (x : Float) (places : Int) (stripZeros : Bool) (notated : Notation) (base : Nat) (groupDigits : Bool)
    (libm : Libm := .native) : Written :=
  if x.isNaN then nan
  else if x.isInf then infinite (x < 0) false
  else if hasBase x base then based (x < 0) (baseDigits base (Binary.wholePart x)) base
  else decimal (numeral x places stripZeros notated groupDigits libm)

/-! ### Styles -/

/-- An amount: two places and grouped thousands, or all its places when shown in full. -/
def money (x : Float) (full : Bool) (s : Settings) : Numeral :=
  let n :=
    if full then (numeral x.abs fullPlaces s.stripZeros s.notated s.groupDigits).padFraction 2
    else { Numeral.fixed x.abs 2 with grouped := true }
  ({ n with negative := x < 0, dollar := true } : Numeral).dropNegativeZero

/-- A percentage: at most two places, or all its places when shown in full. -/
def percentage (x : Float) (full : Bool) (s : Settings) : Written :=
  let p := x * 100.0
  if full then
    if p.isInf then infinite (p < 0) true
    else decimal { numeral p fullPlaces s.stripZeros s.notated false with percent := true }
  else decimal { (Numeral.fixed p 2).stripZeros.dropNegativeZero with percent := true }

/-- The value of a declaration or an output, as its marker asks. -/
def value (x : Float) (style : Style) (full : Bool) (base : Nat) (s : Settings) : Written :=
  if x.isFinite then
    match style with
    | .money => decimal (money x full s)
    | .percent => percentage x full s
    | .plain => number x (if full then fullPlaces else s.places) s.stripZeros s.notated base s.groupDigits
  else number x 0 true .positional 10 false

end Written

/-! ### Texts -/

/-- A number with its own choices. -/
def writeNumber (x : Float) (places : Int) (stripZeros : Bool := true) (notated : Notation := .positional)
    (base : Nat := 10) (groupDigits : Bool := false) (libm : Libm := .native) : Text :=
  (Written.number x places stripZeros notated base groupDigits libm).render

/-- A number as the settings ask, in decimal. -/
def Settings.write (s : Settings) (x : Float) : Text := writeNumber x s.places s.stripZeros s.notated 10 s.groupDigits

/-- A value in its style. -/
def Settings.writeValue (s : Settings) (x : Float) (style : Style) (full : Bool) (base : Nat) : Text :=
  (Written.value x style full base s).render

/-- All the places that a value shown in full has. -/
def writeFull (x : Float) : Text := writeNumber x fullPlaces

end Worksheet
