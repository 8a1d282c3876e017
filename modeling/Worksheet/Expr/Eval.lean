import Worksheet.Context.Basic
import Worksheet.Expr.Arithmetic
import Worksheet.Expr.Evaluation

/-! The value of an expression. `evalWith` is recursive on the expression and is given how to run a user's
    function; `runner` is recursive on the number of calls that may still be nested, so a function that
    calls itself without end meets an error. Operands and arguments are evaluated from the left, and `if`,
    `&&` and `||` evaluate only what they need. -/

namespace Worksheet

/-- Calls of user functions may be nested this deep. -/
def maxCallDepth : Nat := 200

/-- How to run a user's function on its arguments. -/
abbrev Runner := UserFunction → List Float → Evaluation Float

namespace Context

/-- The value of a name, a use of a constant being recorded. -/
def lookup (c : Context) (name : Text) : Evaluation (Option Float) :=
  match c.find? name with
  | some (.ofConstant v) => do
    Evaluation.useConstant name
    return some v
  | some (.ofVariable v) => return some v
  | none => return none

/-- The value of a variable: what the context knows, else a value that is always there. -/
def read (c : Context) (name : Text) : Evaluation Float := do
  match ← c.lookup name with
  | some v => return v
  | none =>
    match Builtin.value? name with
    | some b => return b.apply c.surroundings []
    | none => Evaluation.fail (.undefinedVariable name)

/-- Whether a built-in function takes `count` arguments; `name` is how the call writes it. -/
def checkArguments (b : Builtin) (name : Text) (count : Nat) : Evaluation Unit :=
  if count < b.minArgs then Evaluation.fail (.tooFewArguments name b.minArgs)
  else match b.maxArgs with
    | some most => if most < count then Evaluation.fail (.tooManyArguments name most) else return ()
    | none => return ()

end Context

/-- The value of an operator that evaluates both operands. -/
def BinaryOp.evaluate (op : BinaryOp) (l r : Float) : Evaluation Float :=
  if op = .divide ∧ r == 0 then Evaluation.fail .divisionByZero
  else Evaluation.ofOption (.unknownOperator op.symbol) (op.value? l r)

namespace Expr

mutual
/-- The value of an expression. User functions are run by `run`; without it the calls are too deep. -/
def evalWith (run : Option Runner) (c : Context) : Expr → Evaluation Float
  | number v _ => return v
  | var x => c.read x
  | unary op e => do
    let v ← evalWith run c e
    Evaluation.ofOption (.unknownOperator op.symbol) (op.value? v)
  | binary .and l r => do
    let v ← evalWith run c l
    if Binary.truthy v then return Binary.ofBool (Binary.truthy (← evalWith run c r)) else return 0
  | binary .or l r => do
    let v ← evalWith run c l
    if Binary.truthy v then return 1 else return Binary.ofBool (Binary.truthy (← evalWith run c r))
  | binary op l r => do
    let x ← evalWith run c l
    let y ← evalWith run c r
    op.evaluate x y
  | call f args =>
    match c.function? f with
    | some fn => do
      Evaluation.useFunction (Text.lower f)
      match run with
      | none => Evaluation.fail (.tooDeep f)
      | some run => do
        let vs ← evalArgs (some run) c args
        run fn vs
    | none =>
      if Text.lower f = ['i', 'f'] then evalIf run c args
      else match Builtin.find? (Text.lower f) with
        | none => Evaluation.fail (.unknownFunction f)
        | some b => do
          Context.checkArguments b f args.length
          let vs ← evalArgs run c args
          return b.apply c.surroundings vs

/-- The values of arguments. -/
def evalArgs (run : Option Runner) (c : Context) : List Expr → Evaluation (List Float)
  | [] => return []
  | e :: es => do
    let v ← evalWith run c e
    let vs ← evalArgs run c es
    return v :: vs

/-- The value of `if`: of the branch that its condition selects. -/
def evalIf (run : Option Runner) (c : Context) : List Expr → Evaluation Float
  | [cond, x] => do
    let v ← evalWith run c cond
    if Binary.truthy v then evalWith run c x else return 0.0
  | [cond, x, y] => do
    let v ← evalWith run c cond
    if Binary.truthy v then evalWith run c x else evalWith run c y
  | _ => Evaluation.fail .conditionArguments
end

/-- How to run a function in `c` when `remaining` more calls may be nested. -/
def runner : Nat → Context → Option Runner
  | 0, _ => none
  | remaining + 1, c => some fun fn args =>
    let inner := c.enter fn.params args
    evalWith (runner remaining inner) inner fn.body

/-- The value of an expression in a context. -/
def eval (c : Context) (e : Expr) : Evaluation Float := evalWith (runner (maxCallDepth - c.depth) c) c e

end Expr
end Worksheet
