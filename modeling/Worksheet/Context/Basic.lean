import Worksheet.Expr.Basic
import Worksheet.Expr.Builtin

/-! What the names in an expression mean. A shared constant that the document declares anew keeps its
    shared value on the lines before that declaration; `find?` lays down the order in which parameters,
    constants and variables are looked at. -/

namespace Worksheet

/-- A shared constant. -/
structure Constant where
  value : Float
  comment : Text := []

/-- A function of the document or a shared one. -/
structure UserFunction where
  params : List Text
  body : Expr
  /-- The lines of its definition. -/
  source : Text := []

/-- The position behind all lines, from which every local declaration is seen. -/
def endOfDocument : Int := 2147483647

structure Context where
  constants : Table Constant := ∅
  /-- The functions under their names in small letters. -/
  functions : Table UserFunction := ∅
  values : Table Float := ∅
  /-- Parameters and trial values, which come before constants on every line. -/
  bound : NameSet := ∅
  /-- The constants that the document declares, each with the first line that does so. -/
  shadowed : Table Int := ∅
  surroundings : Surroundings := {}
  /-- The line whose expressions are evaluated. -/
  line : Int := endOfDocument
  /-- The number of calls around the present one. -/
  depth : Nat := 0

namespace Context

/-! ### Changes -/

def setVariable (c : Context) (name : Text) (value : Float) : Context :=
  { c with values := c.values.insert name value }

/-- Gives a value to a parameter or to the unknown of an equation. -/
def bind (c : Context) (name : Text) (value : Float) : Context :=
  { c with values := c.values.insert name value, bound := c.bound.add name }

def eraseVariable (c : Context) (name : Text) : Context :=
  { c with values := c.values.erase name, bound := c.bound.erase name }

/-- From `line` on the constant `name` is hidden; the first such line counts. -/
def shadow (c : Context) (name : Text) (line : Int) : Context :=
  if c.constants.contains name && (c.shadowed.find? name).all (line < ·) then
    { c with shadowed := c.shadowed.insert name line }
  else c

def setLine (c : Context) (line : Int) : Context := { c with line }

def setDegrees (c : Context) (on : Bool) : Context :=
  { c with surroundings := { c.surroundings with degrees := on } }

def degrees (c : Context) : Bool := c.surroundings.degrees

/-- The context inside a call: one level deeper, with a value for every parameter, 0 where an argument is
    missing. -/
def enter (c : Context) (params : List Text) (args : List Float) : Context :=
  let inner := { c with depth := c.depth + 1 }
  (params.zip (args ++ List.replicate params.length 0.0)).foldl (fun c p => c.bind p.1 p.2) inner

/-! ### Look-ups -/

/-- What a name means: the value of a constant or of a variable. -/
inductive Meaning where
  | ofConstant (value : Float)
  | ofVariable (value : Float)

def Meaning.value : Meaning → Float
  | ofConstant v => v
  | ofVariable v => v

/-- The constant exists and is not hidden on the present line. -/
def constantVisible (c : Context) (name : Text) : Bool :=
  c.constants.contains name && (c.shadowed.find? name).all (c.line < ·)

def hasVariable (c : Context) (name : Text) : Bool := c.values.contains name

/-- A name has a value on the present line. -/
def isKnown (c : Context) (name : Text) : Bool := c.hasVariable name || c.constantVisible name

/-- The meaning of a name: a bound value, else a constant that is hidden only from a later line, else a
    variable, else a constant that is never hidden. -/
def find? (c : Context) (name : Text) : Option Meaning :=
  match c.values.find? name, c.constants.find? name with
  | some v, none => some (.ofVariable v)
  | none, none => none
  | some v, some k =>
    if c.bound.contains name then some (.ofVariable v)
    else if c.shadowed.contains name && c.constantVisible name then some (.ofConstant k.value)
    else some (.ofVariable v)
  | none, some k => if c.constantVisible name then some (.ofConstant k.value) else none

/-- The function of a name in letters of either case. -/
def function? (c : Context) (name : Text) : Option UserFunction := c.functions.find? (Text.lower name)

/-- The name stands for one of the values that are always there. -/
def namesBuiltin (name : Text) : Bool := (Builtin.value? name).isSome

/-- The name has no value on the present line and stands for none that is always there. -/
def isUnknown (c : Context) (name : Text) : Bool := !c.isKnown name && !namesBuiltin name

/-- The unknown names in some expressions. -/
def unknowns (c : Context) (es : List Expr) : NameSet := NameSet.ofList ((es.flatMap Expr.names).filter c.isUnknown)

end Context
end Worksheet
