import Worksheet.Table
import Worksheet.Expr.Operator

/-! Expression trees. `names` lists the variables that a tree reads, and `substitute` puts expressions in
    place of variables, all at once: what it puts in is not rewritten again. -/

namespace Worksheet

inductive Expr where
  /-- A number with the base it was written in. -/
  | number (value : Float) (base : Nat)
  | var (name : Text)
  | unary (op : PrefixOp) (operand : Expr)
  | binary (op : BinaryOp) (left right : Expr)
  | call (function : Text) (args : List Expr)
  deriving Inhabited

namespace Expr

mutual
/-- The variables of an expression in the order in which it names them. Names of functions do not count. -/
def names : Expr → List Text
  | number _ _ => []
  | .var x => [x]
  | unary _ e => names e
  | binary _ l r => names l ++ names r
  | call _ args => argNames args

def argNames : List Expr → List Text
  | [] => []
  | e :: es => names e ++ argNames es
end

/-- The set of the variables of an expression. -/
def nameSet (e : Expr) : NameSet := NameSet.ofList e.names

mutual
/-- Every variable that `subs` maps is replaced by its expression. -/
def substitute (subs : Text → Option Expr) : Expr → Expr
  | number v b => number v b
  | .var x => (subs x).getD (.var x)
  | unary op e => unary op (substitute subs e)
  | binary op l r => binary op (substitute subs l) (substitute subs r)
  | call f args => call f (substituteArgs subs args)

def substituteArgs (subs : Text → Option Expr) : List Expr → List Expr
  | [] => []
  | e :: es => substitute subs e :: substituteArgs subs es
end

/-- The name that the expression is, if it is one by itself. -/
def name? : Expr → Option Text
  | .var x => some x
  | _ => none

end Expr
end Worksheet
