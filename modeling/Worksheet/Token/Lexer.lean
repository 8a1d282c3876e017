import Worksheet.Token.Basic
import Worksheet.Number.Literal

/-! From text to tokens. `scan` reads the token at the head of a text and gives the number of characters
    behind the first one that it takes, so no token is empty; `lexFrom` walks over the text one character
    at a time and knows its place at each. A character that belongs to no token becomes a fault, hence
    every text has tokens. -/

namespace Worksheet

/-- A line, a column and an offset. -/
structure Position where
  line : Nat := 1
  col : Nat := 1
  offset : Nat := 0

/-- The place behind a character. -/
def Position.after (p : Position) (c : Char) : Position :=
  if c = '\n' then ⟨p.line + 1, 1, p.offset + 1⟩ else ⟨p.line, p.col + 1, p.offset + 1⟩

namespace Lexer
open Token

/-! ### Looking ahead -/

/-- A blank that the look-ahead skips. -/
def isGap (c : Char) : Bool := c == ' ' || c == '\t'

/-- The text goes on with something that begins an operand. -/
def operandFollows (t : Text) : Bool :=
  match (t.dropWhile isGap).head? with
  | some c => Byte.isNamePart c || c == '(' || c == '.' || c == '$'
  | none => false

def startsWithDigit (t : Text) : Bool := t.head?.any Byte.isDigit

/-- A digit, or a point with a digit behind it. -/
def startsNumber : Text → Bool
  | '.' :: t => startsWithDigit t
  | t => startsWithDigit t

/-! ### Numbers -/

/-- What a scan finds: the kind of the token, and its characters but for the first one. -/
structure Found where
  kind : Kind
  more : Nat

/-- The base that digits denote; it stops growing once it has passed every valid one. -/
def baseOf (digits : Text) : Nat :=
  digits.foldl (fun b c => if b < 1000 then b * 10 + (c.toNat - '0'.toNat) else b) 0

/-- A base literal: `digits`, then `#`, then the base at the head of `t`. -/
def scanBased (digits t : Text) : Found :=
  let baseDigits := t.takeWhile Byte.isDigit
  let base := baseOf baseDigits
  let more := digits.length + baseDigits.length
  if base < 2 || 36 < base then ⟨.fault .invalidBase, more⟩
  else match Digits.read? base digits with
    | some v => ⟨.number v base .plain, more⟩
    | none => ⟨.fault .invalidDigit, more⟩

/-- The digits behind `0x`, `0b` or `0o`. -/
def scanPrefixed (letter : Char) (base : Nat) (t : Text) : Found :=
  let digits := t.takeWhile fun c => (Byte.digitOf? base c).isSome
  match Digits.read? base digits with
  | some v => if digits.isEmpty then ⟨.fault (.emptyPrefixed letter), 1⟩ else ⟨.number v base .plain, digits.length + 1⟩
  | none => ⟨.fault (.emptyPrefixed letter), 1⟩

/-- The digits of an amount, with the commas that stand before a digit. -/
def amountDigits : Text → Text
  | [] => []
  | c :: t =>
    if Byte.isDigit c || (c == ',' && startsWithDigit t) then c :: amountDigits t else []

/-- The characters of a decimal numeral: digits, a point, digits, an exponent. -/
def numeralLength (money : Bool) (t : Text) : Nat :=
  let whole := if money then amountDigits t else t.takeWhile Byte.isDigit
  let rest := t.drop whole.length
  let fraction := match rest with
    | '.' :: r => 1 + Text.span Byte.isDigit r
    | _ => 0
  let exponent := match Decimal.exponent? (rest.drop fraction) with
    | some (_, n) => n
    | none => 0
  whole.length + fraction + exponent

/-- A decimal number of at least one character. A `%` behind it belongs to it unless it decorates a marker
    or divides. -/
def scanDecimal (money : Bool) (t : Text) : Found :=
  let n := numeralLength money t
  let v := Decimal.value ((t.take n).filter (· != ','))
  let plain : Found := ⟨.number v 10 (if money then .money else .plain), n - 1⟩
  match t.drop n with
  | '%' :: r =>
    if (Marker.ofText? r).isNone && !operandFollows r then ⟨.number (v / 100.0) 10 .percent, n⟩ else plain
  | _ => plain

/-- A number that begins with a digit is a base literal if `#` and a base follow its letters and digits. -/
def scanDigits (t : Text) : Found :=
  let digits := if startsWithDigit t then t.takeWhile Byte.isAlphanumeric else []
  match t.drop digits.length with
  | '#' :: r => if digits.isEmpty || !startsWithDigit r then scanDecimal false t else scanBased digits r
  | _ => scanDecimal false t

/-- A number without a `$` before it. -/
def scanNumber (t : Text) : Found :=
  match t with
  | '0' :: p :: r =>
    match Literal.prefixBase? p with
    | some base => scanPrefixed (Byte.lower p) base r
    | none => scanDigits t
  | _ => scanDigits t

/-! ### Names -/

/-- What stands before a token, as far as its reading depends on it. -/
structure Before where
  /-- An operator, an opening parenthesis or a separator came last. -/
  operandDue : Bool := false
  /-- The characters right before it are a name. -/
  touchesName : Bool := false

def Before.ofKind : Kind → Before
  | .operator | .openParen | .semicolon | .comma => ⟨true, false⟩
  | .name => ⟨false, true⟩
  | _ => ⟨false, false⟩

/-- Behind a name, `#base` is a suffix when a marker or limits follow. -/
def suffixFollows (t : Text) : Bool :=
  let rest := (t.dropWhile Byte.isDigit).dropWhile isGap
  (Marker.ofText? rest).isSome || rest.head? == some '['

/-- A name, the two numbers that are written as names, or a base literal that begins with a letter. -/
def scanName (before : Before) (t : Text) : Found :=
  let name := t.takeWhile Byte.isNamePart
  let plain : Found := ⟨.name, name.length - 1⟩
  if name = "Infinity".toList then ⟨.number Binary.infinity 10 .plain, name.length - 1⟩
  else if name = "NaN".toList then ⟨.number Binary.nan 10 .plain, name.length - 1⟩
  else match t.drop name.length with
    | '#' :: r => if startsWithDigit r && (before.operandDue || !suffixFollows r) then scanBased name r else plain
    | _ => plain

/-! ### Markers, suffixes and operators -/

/-- A marker whose decoration takes `taken` characters. -/
def foundMarker (taken : Nat) (m : Marker) (d : Decoration) : Found := ⟨.marker m d, taken + m.text.length - 1⟩

/-- Behind `$`: an amount, a decorated marker, or a suffix. -/
def scanDollar (t : Text) : Found :=
  if startsNumber t then
    let n := scanDecimal true t
    ⟨n.kind, n.more + 1⟩
  else match Marker.ofText? t with
    | some m => foundMarker 1 m ⟨.money, 10⟩
    | none => ⟨.suffix ⟨.money, 10⟩, 0⟩

/-- Behind `%`: a decorated marker, a suffix of the name before it, or an operator. -/
def scanPercent (before : Before) (t : Text) : Found :=
  match Marker.ofText? t with
  | some m => foundMarker 1 m ⟨.percent, 10⟩
  | none => if before.touchesName && !operandFollows t then ⟨.suffix ⟨.percent, 10⟩, 0⟩ else ⟨.operator, 0⟩

/-- Behind `#`: a base, at a marker or by itself. -/
def scanHash (t : Text) : Found :=
  let digits := t.takeWhile Byte.isDigit
  if digits.isEmpty then ⟨.fault .unexpectedCharacter, 0⟩
  else match Marker.ofText? (t.drop digits.length) with
    | some m => foundMarker (1 + digits.length) m ⟨.plain, baseOf digits⟩
    | none => ⟨.suffix ⟨.plain, baseOf digits⟩, digits.length⟩

/-- The operators of two characters. -/
def doubleOperators : List Text :=
  [['*', '*'], ['=', '='], ['!', '='], ['<', '='], ['>', '='], ['<', '<'], ['>', '>'], ['&', '&'], ['|', '|'], ['^', '^']]

/-- The operators of one character. -/
def singleOperators : List Char :=
  ['+', '-', '*', '/', '&', '|', '^', '~', '!', '<', '>', '=', '?', '\\']

def scanOperator (t : Text) : Found :=
  match Marker.ofText? t with
  | some m => foundMarker 0 m {}
  | none =>
    if doubleOperators.contains (t.take 2) then ⟨.operator, 1⟩
    else if t.head?.any singleOperators.contains then ⟨.operator, 0⟩
    else ⟨.fault .unexpectedCharacter, 0⟩

/-! ### Comments -/

/-- A quoted comment goes to the next quote or to the end of the line; `t` stands behind its first quote. -/
def scanQuoted (t : Text) : Found :=
  let n := Text.span (fun c => c != '"' && c != '\n') t
  ⟨.comment, if (t.drop n).head? = some '"' then n + 1 else n⟩

/-- The token at the head of a text that begins with no blank. -/
def scan (before : Before) (c : Char) (t : Text) : Found :=
  match c with
  | '\n' => ⟨.newline, 0⟩
  | '"' => scanQuoted t
  | '(' => ⟨.openParen, 0⟩
  | ')' => ⟨.closeParen, 0⟩
  | '[' => ⟨.openBracket, 0⟩
  | ']' => ⟨.closeBracket, 0⟩
  | '{' => ⟨.openBrace, 0⟩
  | '}' => ⟨.closeBrace, 0⟩
  | ';' => ⟨.semicolon, 0⟩
  | ',' => ⟨.comma, 0⟩
  | '$' => scanDollar t
  | '%' => scanPercent before t
  | '#' => scanHash t
  | _ =>
    if c = '/' ∧ t.head? = some '/' then ⟨.comment, Text.span (· != '\n') t⟩
    else if startsNumber (c :: t) then scanNumber (c :: t)
    else if Byte.isNameStart c then scanName before (c :: t)
    else scanOperator (c :: t)

/-! ### Walking over the text -/

/-- The tokens of a text whose first `skip` characters belong to the token before it. -/
def lexFrom (skip : Nat) (before : Before) (p : Position) : Text → List Token
  | [] => [⟨.finish, [], p.line, p.col, p.offset⟩]
  | c :: t =>
    match skip with
    | skip + 1 => lexFrom skip before (p.after c) t
    | 0 =>
      if Byte.isBlank c then lexFrom 0 { before with touchesName := false } (p.after c) t
      else
        let found := scan before c t
        ⟨found.kind, c :: t.take found.more, p.line, p.col, p.offset⟩
          :: lexFrom found.more (.ofKind found.kind) (p.after c) t

end Lexer

/-- The tokens of a text; the last one is its end. -/
def tokenize (t : Text) : List Token := Lexer.lexFrom 0 {} {} t

/-- The tokens that the rules of a line look at. -/
def significant (ts : List Token) : List Token := ts.filter (!·.kind.isSilent)

end Worksheet
