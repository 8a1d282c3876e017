import Worksheet.Number.Decimal
import Worksheet.Settings

/-! Plain values: what may stand for the value of a declaration without being an expression. -/

namespace Worksheet

/-! ### Digits of a base -/

namespace Digits

-- A power here is the one of the numbers themselves, whatever other instances are in scope.
attribute [local instance (high)] instPowNat

/-- The natural number nearest to `n` among those with 53 significant bits, ties to even. -/
def roundTo53 (n : Nat) : Nat :=
  let e := n.log2 - 52
  Binary.roundQuotient n (2 ^ e) * 2 ^ e

/-- One more digit: the product and the sum are rounded in turn. -/
def step (base n d : Nat) : Nat := roundTo53 (roundTo53 (n * base) + d)

/-- The number that digits denote in a base, rounded at every digit. -/
def fold (base : Nat) (digits : List Nat) : Float := Binary.ofNat (digits.foldl (step base) 0)

/-- The number that all characters of a text denote as digits of `base`. -/
def read? (base : Nat) (t : Text) : Option Float := (t.mapM (Byte.digitOf? base)).map (fold base)

end Digits

namespace Literal

/-! ### Parts of a literal -/

/-- The base of `0x`, `0b` and `0o`. -/
def prefixBase? (c : Char) : Option Nat :=
  match Byte.lower c with
  | 'x' => some 16
  | 'b' => some 2
  | 'o' => some 8
  | _ => none

/-- `0xFF` and the like, with at least one digit. -/
def prefixed? : Text → Option Float
  | '0' :: p :: d :: t => (prefixBase? p).bind fun base => Digits.read? base (d :: t)
  | _ => none

/-- `FF#16`: digits before the first `#` and a base of one or two digits behind it. -/
def based? (t : Text) : Option Float :=
  let digits := t.takeWhile (· != '#')
  let base := (t.dropWhile (· != '#')).drop 1
  if digits.isEmpty || base.isEmpty || !base.all Byte.isDigit || decide (2 < base.length) then none
  else
    let b := Text.toNat base
    if 2 ≤ b ∧ b ≤ 36 then Digits.read? b digits else none

/-- A number without sign, `$`, `%` and commas. -/
def body? (money : Bool) (t : Text) : Option Float :=
  if Decimal.isNumeral t then some (Decimal.value t)
  else if money then none
  else (prefixed? t).orElse fun _ => based? t

/-- The text without the white space at its ends. -/
def strip (t : Text) : Text := (((t.dropWhile Byte.isSpace).reverse).dropWhile Byte.isSpace).reverse

/-- Removes a `%` at the end; says whether there was one. -/
def splitPercent (t : Text) : Text × Bool := if t.getLast? = some '%' then (t.dropLast, true) else (t, false)

/-- A signed literal that is no name of a special value. -/
def signed? (style : Style) (t : Text) : Option Float :=
  let negative := t.head? = some '-'
  let t := if negative then t.drop 1 else t
  let money := t.head? = some '$'
  let t := if money then t.drop 1 else t
  let (t, percent) := splitPercent t
  (body? money (t.filter (· != ','))).map fun v =>
    let v := if negative then -v else v
    if style = .percent || percent then v / 100.0 else v

/-- The value of a literal such as `12.5`, `-3e4`, `$1,234.56`, `7.5%`, `0xFF`, `FF#16`, `NaN`; nothing when
    the text is an expression. In a percentage a bare number counts hundredths. -/
def read? (t : Text) (style : Style := .plain) : Option Float :=
  let t := strip t
  if t = "NaN".toList then some Binary.nan
  else if t = "Infinity".toList then some Binary.infinity
  else if t = "-Infinity".toList then some (-Binary.infinity)
  else signed? style t

end Literal
end Worksheet
