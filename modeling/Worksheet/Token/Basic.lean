import Worksheet.Text
import Worksheet.Settings

/-! The tokens of a line. A token keeps the characters it was read from and where they stand; its kind holds
    what they mean. -/

namespace Worksheet

/-- What separates a name or an expression from its value. -/
inductive Marker where
  | colon | doubleColon | leftArrow | rightArrow | fullArrow
  deriving DecidableEq, Repr

namespace Marker

def text : Marker → Text
  | colon => [':']
  | doubleColon => [':', ':']
  | leftArrow => ['<', '-']
  | rightArrow => ['-', '>']
  | fullArrow => ['-', '>', '>']

/-- The value behind the marker is computed, not given. -/
def isOutput : Marker → Bool
  | rightArrow | fullArrow => true
  | _ => false

def isColon : Marker → Bool
  | colon | doubleColon => true
  | _ => false

/-- The value behind the marker is shown with all its places. -/
def isFull : Marker → Bool
  | doubleColon | fullArrow => true
  | _ => false

/-- Of several markers on a line the one of the highest rank counts. -/
def rank : Marker → Nat
  | fullArrow => 4
  | rightArrow => 3
  | doubleColon => 2
  | colon => 1
  | leftArrow => 0

/-- The marker at the head of a text; the longest one that is there. -/
def ofText? : Text → Option Marker
  | ':' :: ':' :: _ => some doubleColon
  | ':' :: _ => some colon
  | '<' :: '-' :: _ => some leftArrow
  | '-' :: '>' :: '>' :: _ => some fullArrow
  | '-' :: '>' :: _ => some rightArrow
  | _ => none

end Marker

/-- What `$`, `%` and `#base` at a marker or behind a name ask for. -/
structure Decoration where
  style : Style := .plain
  base : Nat := 10
  deriving DecidableEq, Repr

namespace Token

/-- Why characters are no token. -/
inductive Fault where
  /-- `0x`, `0b` or `0o` without digits. -/
  | emptyPrefixed (letter : Char)
  | invalidBase
  | invalidDigit
  | unexpectedCharacter
  deriving DecidableEq, Repr

/-- What a token is. -/
inductive Kind where
  | number (value : Float) (base : Nat) (style : Style)
  | name
  | operator
  | openParen | closeParen
  | openBracket | closeBracket
  | openBrace | closeBrace
  | semicolon
  | comma
  | marker (m : Marker) (decoration : Decoration)
  /-- `$`, `%` or `#base` that belongs to no marker and no number. -/
  | suffix (decoration : Decoration)
  | comment
  | newline
  | finish
  | fault (cause : Fault)

end Token

/-- A token with its characters and the place of the first one: lines and columns from 1, offsets from 0. -/
structure Token where
  kind : Token.Kind
  lexeme : Text
  line : Nat
  col : Nat
  offset : Nat

namespace Token

def Kind.marker? : Kind → Option Marker
  | marker m _ => some m
  | _ => none

def Kind.isMarker (k : Kind) : Bool := k.marker?.isSome

def Kind.isName : Kind → Bool
  | name => true
  | _ => false

def Kind.isOperator : Kind → Bool
  | operator => true
  | _ => false

def Kind.isSuffix : Kind → Bool
  | suffix _ => true
  | _ => false

def Kind.isComment : Kind → Bool
  | comment => true
  | _ => false

def Kind.isFinish : Kind → Bool
  | finish => true
  | _ => false

/-- Comments, line ends and the end of the text, which no rule of a line looks at. -/
def Kind.isSilent : Kind → Bool
  | comment | newline | finish => true
  | _ => false

/-- How the value of a number is dressed, or what a decoration asks for. -/
def Kind.style : Kind → Style
  | number _ _ s => s
  | marker _ d => d.style
  | suffix d => d.style
  | _ => .plain

/-- The base that a number is written in or that a decoration asks for. -/
def Kind.base : Kind → Nat
  | number _ b _ => b
  | marker _ d => d.base
  | suffix d => d.base
  | _ => 10

/-- The number of characters the token is read from. -/
def length (t : Token) : Nat := t.lexeme.length

/-- The offset behind the last character. -/
def endOffset (t : Token) : Nat := t.offset + t.length

/-- The column behind the last character. -/
def endCol (t : Token) : Nat := t.col + t.length

/-- The body of a comment. A quoted one ends at the next quote, if there is one. -/
def commentBody : Text → Text
  | '"' :: t => t.takeWhile (· != '"')
  | t => t.drop 2

def Fault.message (lexeme : Text) : Fault → Text
  | emptyPrefixed letter => "Invalid 0".toList ++ letter :: " literal".toList
  | invalidBase => "Invalid base in literal '".toList ++ lexeme ++ ['\'']
  | invalidDigit => "Invalid digit in base literal '".toList ++ lexeme ++ ['\'']
  | unexpectedCharacter => "Unexpected character '".toList ++ lexeme ++ ['\'']

/-- What the token says: a comment's body, a marker without its decoration, the message of a fault, and
    otherwise its characters. -/
def text (t : Token) : Text :=
  match t.kind with
  | .comment => commentBody t.lexeme
  | .marker m _ => m.text
  | .fault cause => cause.message t.lexeme
  | _ => t.lexeme

/-- The operator written `symbol`. -/
def isOperator (t : Token) (symbol : Text) : Bool := t.kind.isOperator && t.lexeme == symbol

/-- `b` begins right behind `a`. -/
def touches (a b : Token) : Bool := a.endOffset == b.offset

end Token
end Worksheet
