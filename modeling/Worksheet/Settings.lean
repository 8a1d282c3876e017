/-! How values are shown and what a solve may do, chosen for each document. -/

namespace Worksheet

/-- How the size of a number is shown: positionally, with one digit before the point and an exponent, or
    with an exponent that is a multiple of 3. -/
inductive Notation where
  | positional | scientific | engineering
  deriving DecidableEq, Repr

/-- How a value is dressed: bare, as an amount of money, or as a percentage. -/
inductive Style where
  | plain | money | percent
  deriving DecidableEq, Repr

/-- The choices of one document. -/
structure Settings where
  /-- Decimal places of a value that is not shown in full. -/
  places : Int := 4
  /-- Zeros at the end of a fraction are left out. -/
  stripZeros : Bool := true
  /-- Commas stand between thousands. -/
  groupDigits : Bool := false
  notated : Notation := .positional
  /-- Angles are in degrees. -/
  degrees : Bool := false
  /-- A declaration may take the name of a shared constant. -/
  shadowConstants : Bool := true
  /-- The shared constants and functions that were used are listed behind the document. -/
  appendReferences : Bool := false

/-- Places of a value that is shown in full. -/
def fullPlaces : Int := 15

end Worksheet
