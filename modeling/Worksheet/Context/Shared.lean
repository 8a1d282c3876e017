import Worksheet.Context.Basic
import Worksheet.Document.Function
import Worksheet.Line.Classify
import Worksheet.Expr.Parser

/-! The context that several documents share: constants, one declaration on a line, and functions. -/

namespace Worksheet.Shared

/-- The constant that a line declares. Only a plain value makes one, and its comment has to be quoted. -/
def constant? (line : Text) : Option (Text × Constant) := do
  let l ← classifyLine line
  let name ← l.name?
  let value ← if l.valueText.isEmpty then none else Literal.read? l.valueText l.decoration.style
  return (name, ⟨value, l.quoted.getD []⟩)

/-- The constants of a text; of several with one name the last counts. -/
def constants (t : Text) : Table Constant :=
  ((Text.lines t).filterMap constant?).foldl (fun table c => table.insert c.1 c.2) ∅

/-- A table with one more function, under its name in small letters. -/
def addFunction (table : Table UserFunction) (f : FunctionSource) : Except ParseError (Table UserFunction) :=
  match parseExpr f.body with
  | .ok body => .ok (table.insert (Text.lower f.name) ⟨f.params, body, f.source⟩)
  | .error e => .error ⟨.inFunction f.name e.cause, f.firstLine + 1, e.col⟩

/-- The functions of a text. -/
def functions (t : Text) : Except ParseError (Table UserFunction) :=
  (FunctionSource.find (Text.lines t)).foldlM addFunction ∅

/-- The context of constants and functions. -/
def context (constantsText functionsText : Text) (surroundings : Surroundings) : Except ParseError Context :=
  match functions functionsText with
  | .ok functions => .ok { constants := constants constantsText, functions, surroundings }
  | .error e => .error e

end Worksheet.Shared
