import Worksheet.Text

/-! The text behind an output marker: an old value that the next solve replaces, and a unit that stays. -/

namespace Worksheet.OutputText

/-- The length of a value in a base: letters and digits, `#`, and a base, up to a blank or the end. -/
def basedLength? (t : Text) : Option Nat :=
  let digits := t.takeWhile Byte.isAlphanumeric
  match t.drop digits.length with
  | '#' :: r =>
    let base := r.takeWhile Byte.isDigit
    let rest := r.drop base.length
    if !digits.isEmpty && !base.isEmpty && rest.head?.all Byte.isBlank then some (digits.length + 1 + base.length) else none
  | _ => none

/-- The values that are written as names. -/
def specials : List Text := ["-Infinity".toList, "Infinity".toList, "NaN".toList]

/-- The length of a value that is written as a name. -/
def specialLength? (t : Text) : Option Nat := (specials.find? (·.isPrefixOf t)).map List.length

/-- 1 if the text begins with `c`. -/
def startsWith (c : Char) (t : Text) : Nat := if t.head? = some c then 1 else 0

/-- The length of a point with digits behind it. -/
def fractionLength : Text → Nat
  | '.' :: t => if t.head?.any Byte.isDigit then 1 + Text.span Byte.isDigit t else 0
  | _ => 0

/-- The length of an exponent. -/
def exponentLength (t : Text) : Nat :=
  if t.head? = some 'e' || t.head? = some 'E' then
    let t := t.drop 1
    let sign := max (startsWith '+' t) (startsWith '-' t)
    let digits := Text.span Byte.isDigit (t.drop sign)
    if digits = 0 then 0 else 1 + sign + digits
  else 0

/-- The length of a decimal value: a sign, `$`, digits and commas, a fraction, `%` and an exponent. -/
def decimalLength? (t : Text) : Option Nat :=
  let sign := startsWith '-' t
  let start := sign + startsWith '$' (t.drop sign)
  let whole := (t.drop start).takeWhile fun c => Byte.isDigit c || c == ','
  if whole.any Byte.isDigit then
    let n := start + whole.length
    let n := n + fractionLength (t.drop n)
    let n := n + startsWith '%' (t.drop n)
    some (n + exponentLength (t.drop n))
  else none

/-- The length of the value at the head of a trimmed text; 0 if there is none. -/
def valueLength (t : Text) : Nat :=
  (((basedLength? t).orElse fun _ => specialLength? t).orElse fun _ => decimalLength? t).getD 0

/-- The value and the unit in the text behind an output marker. -/
def split (payload : Text) : Text × Text :=
  let t := Text.trim payload
  let n := valueLength t
  if n = 0 then ([], t) else (t.take n, Text.trim (t.drop n))

end Worksheet.OutputText
