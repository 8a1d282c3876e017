import Worksheet.Expr.Parser
import Worksheet.Expr.Evaluation
import Worksheet.Root.Search
import Worksheet.Number.Writing

/-! What goes wrong in a solve: failures to give a name a value, which count only if the value is asked for
    in the end, and issues, which are reported. -/

namespace Worksheet

/-- Why an equation gives its unknown no value. -/
inductive FailureCause where
  | eval (e : EvalError)
  /-- A value outside the declared limits, all as they are shown. -/
  | outsideLimits (value low high : Text)
  /-- Every value solves the equation. -/
  | undetermined
  | search (e : RootError)

namespace FailureCause

def message : FailureCause → Text
  | eval e => e.message
  | outsideLimits value low high =>
    "Computed value ".toList ++ value ++ " is outside limits [".toList ++ low ++ ", ".toList ++ high ++ [']']
  | undetermined => "Equation does not determine a value".toList
  | search e => e.message

end FailureCause

/-- A failure with the line of the equation, counted from 0. -/
structure Failure where
  cause : FailureCause
  line : Nat

inductive Problem where
  | parse (cause : ParseCause)
  | eval (e : EvalError)
  | invalidFunction (name : Text) (cause : ParseCause)
  | constantRedeclared (name : Text)
  /-- The value of `name` reads a name that has none. -/
  | undefinedReference (name missing : Text)
  /-- A second value for `name`; `first` is the line of its first declaration, counted from 0. -/
  | duplicate (name : Text) (first : Nat)
  | unsolved (name : Text) (cause : FailureCause)
  | noValue (name : Text)
  | unbalanced (equation : Text) (left right : Float)

namespace Problem

def message : Problem → Text
  | parse cause => cause.message
  | eval e => e.message
  | invalidFunction name cause => "Invalid function ".toList ++ name ++ ": ".toList ++ cause.message
  | constantRedeclared name => '"' :: name ++ "\" is a constant and cannot be redeclared".toList
  | undefinedReference name missing =>
    "Variable \"".toList ++ name ++ "\" references undefined: ".toList ++ missing
  | duplicate name first =>
    "Duplicate declaration of \"".toList ++ name ++ "\" (first declared on line ".toList ++ Text.ofNat (first + 1) ++ [')']
  | unsolved name cause => cause.message ++ " for '".toList ++ name ++ ['\'']
  | noValue name => "Variable '".toList ++ name ++ "' has no value to output".toList
  | unbalanced equation left right =>
    "Equation doesn't balance: ".toList ++ equation ++ " (".toList ++ writeFull left ++ " != ".toList ++ writeFull right
      ++ [')']

end Problem

/-- A problem with its line, counted from 0. -/
structure Issue where
  line : Nat
  problem : Problem

/-- The report of an issue, its line counted from 1. -/
def Issue.text (i : Issue) : Text := "Line ".toList ++ Text.ofNat (i.line + 1) ++ ": ".toList ++ i.problem.message

end Worksheet
