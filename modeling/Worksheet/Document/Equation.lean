import Worksheet.Document.Function
import Worksheet.Document.Inline
import Worksheet.Expr.Parser

/-! The equations of a document: lines with `=` before any marker, and blocks in braces. Definitions of
    functions are no equations. -/

namespace Worksheet

structure Equation where
  /-- The equation without comments, with parentheses for the backslashes of inline expressions. -/
  text : Text
  /-- It stands in braces. -/
  braced : Bool
  firstLine : Nat
  lastLine : Nat

/-- The two sides of an equation; an incomplete one has nothing behind `=`. -/
structure Sides where
  left : Expr
  right : Option Expr

namespace Equation

/-! ### Finding equations -/

/-- `=` stands before any marker. -/
def isPlain (line : Text) : Bool :=
  match (Lines.significantTokens line).find? fun t => t.kind.isMarker || t.isOperator ['='] with
  | some t => !t.kind.isMarker
  | none => false

/-- The equation in the block that begins behind the first brace of a line. -/
def block? (index : Nat) (clean : Text) (rest : List Text) : Option (Option Equation × Nat) := do
  let (body, more) ← Lines.untilBrace ((clean.dropWhile (· != '{')).drop 1) rest
  let text := Inline.toParens (Text.trim body)
  return (if text.isEmpty then none else some ⟨text, true, index, index + more⟩, more)

/-- The equation that begins on a line, if there is one, and the number of lines that its block goes on for. -/
def at? (index : Nat) (line : Text) (rest : List Text) : Option Equation × Nat :=
  let clean := Classify.blankComments line
  if clean.contains '{' then (block? index clean rest).getD (none, 0)
  else if isPlain clean then (some ⟨Inline.toParens (Text.trim clean), false, index, index⟩, 0)
  else (none, 0)

/-- The equations from line `index` on, where the next `skip` lines are part of a block and the lines of
    `functions` are no equations. -/
def findFrom (functions : List FunctionSource) (skip index : Nat) : List Text → List Equation
  | [] => []
  | l :: ls =>
    match skip with
    | skip + 1 => findFrom functions skip (index + 1) ls
    | 0 =>
      if functions.any (·.covers index) then findFrom functions 0 (index + 1) ls
      else
        let (e, more) := at? index l ls
        e.toList ++ findFrom functions more (index + 1) ls

/-- The equations in some lines. -/
def find (lines : List Text) : List Equation := findFrom (FunctionSource.find lines) 0 0 lines

/-! ### The two sides -/

/-- The tokens before the first `=` outside parentheses, and those behind it. -/
def splitSides (depth : Int) : List Token → Option (List Token × List Token)
  | [] => none
  | t :: ts =>
    let depth := match t.kind with
      | .openParen => depth + 1
      | .closeParen => depth - 1
      | _ => depth
    if depth = 0 ∧ t.isOperator ['='] then some ([], ts)
    else (splitSides depth ts).map fun (l, r) => (t :: l, r)

/-- The sides of an equation. -/
def parseSides (text : Text) : Except ParseError Sides :=
  match splitSides 0 (tokenize text) with
  | none => .error ⟨.noEquals, 1, 1⟩
  | some (left, right) => do
    let l ← parseTokens left
    if right.all (·.kind.isSilent) then return ⟨l, none⟩ else return ⟨l, some (← parseTokens right)⟩

end Equation
end Worksheet
