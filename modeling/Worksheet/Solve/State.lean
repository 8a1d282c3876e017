import Worksheet.Context.Shared
import Worksheet.Document.Clear
import Worksheet.Document.Equation
import Worksheet.Document.Reference
import Worksheet.Expr.Eval
import Worksheet.Root.Find
import Worksheet.Solve.Issue

/-! The state of a solve and its elementary changes. Lines are counted from 0. -/

namespace Worksheet

/-- A declaration of the document with its line. -/
structure Site where
  name : Text
  found : ValueLine
  line : Nat

structure SolveState where
  settings : Settings
  context : Context
  used : Usage := {}
  lines : List Text
  /-- The declarations so far, in the order of their lines. -/
  sites : List Site := []
  /-- The names whose values the document gives. -/
  given : NameSet := ∅
  /-- For every name the first output line that showed a value before the solve. -/
  shown : Table ValueLine := ∅
  localFunctions : NameSet := ∅
  failures : Table Failure := ∅
  /-- The present round has found something. -/
  changed : Bool := false
  /-- The number of values that equations have given. -/
  solved : Nat := 0
  issues : List Issue := []

namespace SolveState

/-! ### Elementary changes -/

def report (s : SolveState) (line : Nat) (p : Problem) : SolveState := { s with issues := s.issues ++ [⟨line, p⟩] }

def setLine (s : SolveState) (line : Nat) (t : Text) : SolveState := { s with lines := s.lines.set line t }

def lineAt (s : SolveState) (line : Nat) : Text := (s.lines[line]?).getD []

def use (s : SolveState) (u : Usage) : SolveState := { s with used := s.used.union u }

def fail (s : SolveState) (name : Text) (cause : FailureCause) (line : Nat) : SolveState :=
  { s with failures := s.failures.insert name ⟨cause, line⟩ }

/-- The context as it is seen on a line. -/
def contextAt (s : SolveState) (line : Nat) : Context := s.context.setLine line

/-- The value is shown already as it would be written. -/
def isShown (s : SolveState) (name : Text) (value : Float) : Bool :=
  (s.shown.find? name).any fun l =>
    s.settings.writeValue value l.decoration.style l.isFull l.decoration.base == l.valueText

/-- Gives a name the value that an equation has for it. A value that is shown already does not count as
    solved. -/
def assign (s : SolveState) (name : Text) (value : Float) : SolveState :=
  { s with
    context := s.context.setVariable name value
    failures := s.failures.erase name
    changed := true
    solved := if s.isShown name value then s.solved else s.solved + 1 }

/-! ### Evaluating -/

/-- The value of an expression on a line. -/
def evaluate (s : SolveState) (line : Nat) (e : Expr) : Except EvalError Float × SolveState :=
  let r := e.eval (s.contextAt line)
  (r.result, s.use r.used)

/-- The value of a text on a line. -/
def evaluateText (s : SolveState) (line : Nat) (t : Text) : Except Problem Float × SolveState :=
  match parseExpr t with
  | .error e => (.error (.parse e.cause), s)
  | .ok e =>
    match s.evaluate line e with
    | (.ok v, s) => (.ok v, s)
    | (.error e, s) => (.error (.eval e), s)

/-- The value of a text that may be a plain value. -/
def valueOf (s : SolveState) (line : Nat) (style : Style) (t : Text) : Except Problem Float × SolveState :=
  match Literal.read? t style with
  | some v => (.ok v, s)
  | none => s.evaluateText line t

/-! ### Limits -/

/-- The limits of the first declaration of a name that has any. Limits without a value count as none. -/
def limitsOf (s : SolveState) (name : Text) : Option Limits × SolveState :=
  match s.sites.find? fun site => site.name == name && site.found.limits?.isSome with
  | none => (none, s)
  | some site =>
    match site.found.limits? with
    | none => (none, s)
    | some l =>
      match s.valueOf site.line site.found.decoration.style l.low with
      | (.error _, s) => (none, s)
      | (.ok low, s) =>
        match s.valueOf site.line site.found.decoration.style l.high with
        | (.error _, s) => (none, s)
        | (.ok high, s) => (some ⟨low, high⟩, s)

end SolveState

/-- A value is admitted when it lies between limits as they are written. -/
def Limits.admits (l : Limits) (v : Float) : Bool := v ≥ l.low && v ≤ l.high

end Worksheet
