import Worksheet.Document.Lines
import Worksheet.Expr.Builtin

/-! Definitions of functions: `name(p1; p2) = body`, or a body in braces that may go on over the following
    lines. No definition takes the name of a built-in function. -/

namespace Worksheet

structure FunctionSource where
  name : Text
  params : List Text
  body : Text
  /-- The lines of the definition. -/
  source : Text
  firstLine : Nat
  lastLine : Nat

namespace FunctionSource

/-- What stands before the body. -/
structure Header where
  name : Text
  params : List Text
  /-- The offset behind `=`. -/
  bodyOffset : Nat

/-- Parameters with separators between them, up to the closing parenthesis, and the tokens behind it. -/
def readParams : List Token → Option (List Text × List Token)
  | [] => none
  | [_] => none
  | t :: sep :: ts =>
    if t.kind.isName then
      match sep.kind with
      | .closeParen => some ([t.lexeme], ts)
      | .semicolon | .comma => (readParams ts).map fun (ps, ts) => (t.lexeme :: ps, ts)
      | _ => none
    else none

/-- The parameters between parentheses of which the first is open. -/
def paramList (ts : List Token) : Option (List Text × List Token) :=
  match ts with
  | t :: rest =>
    match t.kind with
    | .closeParen => some ([], rest)
    | _ => readParams ts
  | [] => none

/-- The header at the start of a line. -/
def header? (line : Text) : Option Header :=
  match Lines.significantTokens line with
  | name :: paren :: ts =>
    match name.kind, paren.kind with
    | .name, .openParen =>
      if (Builtin.find? (Text.lower name.lexeme)).isSome then none
      else
        match paramList ts with
        | some (params, eq :: _) => if eq.isOperator ['='] then some ⟨name.lexeme, params, eq.endOffset⟩ else none
        | _ => none
    | _, _ => none
  | _ => none

/-- The body that begins with `t`, and the number of lines it goes on for. -/
def body? (t : Text) (rest : List Text) : Option (Text × Nat) := do
  let (body, more) ← match t with
    | '{' :: t => (Lines.untilBrace t rest).map fun (b, n) => (Text.trim b, n)
    | t => some (t, 0)
  if body.isEmpty then none else return (body, more)

/-- The definition that begins on a line. -/
def at? (index : Nat) (line : Text) (rest : List Text) : Option FunctionSource := do
  let clean := Classify.blankComments line
  let h ← header? clean
  let (body, more) ← body? (Text.trim (clean.drop h.bodyOffset)) rest
  return {
    name := h.name
    params := h.params
    body
    source := Text.unlines (line :: rest.take more)
    firstLine := index
    lastLine := index + more }

/-- The definitions from line `index` on, the next `skip` lines being part of the one before. -/
def findFrom (skip index : Nat) : List Text → List FunctionSource
  | [] => []
  | l :: ls =>
    match skip with
    | skip + 1 => findFrom skip (index + 1) ls
    | 0 =>
      match at? index l ls with
      | some f => f :: findFrom (f.lastLine - f.firstLine) (index + 1) ls
      | none => findFrom 0 (index + 1) ls

/-- The definitions in some lines. -/
def find (lines : List Text) : List FunctionSource := findFrom 0 0 lines

/-- The line is part of the definition. -/
def covers (f : FunctionSource) (line : Nat) : Bool := f.firstLine ≤ line && line ≤ f.lastLine

end FunctionSource
end Worksheet
