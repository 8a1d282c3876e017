import Worksheet.Context.Basic
import Worksheet.Document.Equation

/-! Equations read as definitions. An equation defines a name that stands alone on one side; one operator
    around an unknown name is undone by moving the other operand across. Definitions of other lines may be
    put in place of the names they define. -/

namespace Worksheet

/-- A name with the expression that it is equal to. -/
structure Definition where
  name : Text
  expr : Expr

namespace Definition

/-- `name = e`, or else `e = name`. -/
def ofSides? (s : Sides) : Option Definition :=
  match s.right with
  | none => none
  | some right =>
    match s.left.name?, right.name? with
    | some x, _ => some ⟨x, right⟩
    | none, some x => some ⟨x, s.left⟩
    | none, none => none

/-- From `x op other = result` the value of `x`. -/
def undoLeft? (op : BinaryOp) (result other : Expr) : Option Expr :=
  match op with
  | .add => some (.binary .subtract result other)
  | .subtract => some (.binary .add result other)
  | .multiply => some (.binary .divide result other)
  | .divide => some (.binary .multiply result other)
  | .power => some (.binary .power result (.binary .divide (.number 1 10) other))
  | _ => none

/-- From `other op x = result` the value of `x`. -/
def undoRight? (op : BinaryOp) (result other : Expr) : Option Expr :=
  match op with
  | .add => some (.binary .subtract result other)
  | .subtract => some (.binary .subtract other result)
  | .multiply => some (.binary .divide result other)
  | .divide => some (.binary .divide other result)
  | _ => none

/-- The name that an operand is, if it has no value. -/
def unknownOperand? (c : Context) (e : Expr) : Option Text := e.name?.filter c.isUnknown

/-- The definition of an unknown operand of `side`, which is equal to `result`. -/
def fromSide? (c : Context) (side result : Expr) : Option Definition :=
  match side with
  | .binary op l r =>
    let left := (unknownOperand? c l).bind fun x => (undoLeft? op result r).map (⟨x, ·⟩)
    let right := (unknownOperand? c r).bind fun x => (undoRight? op result l).map (⟨x, ·⟩)
    left.or right
  | _ => none

/-- The definition of an unknown operand of one of the sides. -/
def derive? (c : Context) (s : Sides) : Option Definition :=
  match s.right with
  | none => none
  | some right => (fromSide? c s.left right).or (fromSide? c right s.left)

end Definition

/-! ### Elimination -/

/-- The definition of a name with the line it comes from. -/
structure Elimination where
  expr : Expr
  line : Nat

/-- The names that can be eliminated. -/
abbrev Eliminations := Table Elimination

namespace Eliminations

/-- Rounds of putting definitions in place of names. -/
def rounds : Nat := 8

/-- The definition of a name on a line other than `line`. -/
def elsewhere (m : Eliminations) (line : Nat) (name : Text) : Option Expr :=
  ((Table.find? m name).filter (·.line != line)).map Elimination.expr

/-- The definitions of other lines put in place of their names, again and again. -/
def eliminate (m : Eliminations) (line : Nat) (e : Expr) : Expr :=
  Nat.repeat (Expr.substitute (m.elsewhere line)) rounds e

/-- The definition can serve: its name has no value and no other definition. -/
def wants (m : Eliminations) (c : Context) (d : Definition) : Bool := !c.isKnown d.name && !Table.contains m d.name

/-- Adds the definition that an equation makes, if it can serve, or else the one derived from it. -/
def addSides (m : Eliminations) (c : Context) (line : Nat) (s : Sides) : Eliminations :=
  match (Definition.ofSides? s).filter (m.wants c), (Definition.derive? c s).filter (m.wants c) with
  | some d, _ | none, some d => Table.insert m d.name ⟨d.expr, line⟩
  | none, none => m

end Eliminations
end Worksheet
