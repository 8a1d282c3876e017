import Worksheet.Solve.Definition
import Worksheet.Solve.State

/-! The second pass: equations. Each equation is completed, evaluated as a definition, or solved for its only
    unknown. The equations are gone through in rounds until a round finds nothing more. -/

namespace Worksheet

/-- Rounds of one solve. -/
def maxRounds : Nat := 50

namespace SolveState

/-! ### Incomplete equations -/

/-- The line with a text behind its first `=`. -/
def fillAfterEquals (line value : Text) : Option Text :=
  ((tokenize line).find? (·.isOperator ['='])).map fun t =>
    let rest := (line.drop t.endOffset).dropWhile Lexer.isGap
    line.take t.endOffset ++ ' ' :: value ++ (if rest.isEmpty then [] else ' ' :: rest)

/-- Writes the value of `left` behind `=`. An equation in braces stays as it is, and so does one without a
    value. -/
def complete (s : SolveState) (eq : Equation) (left : Expr) (m : Eliminations) : SolveState :=
  if eq.braced then s
  else
    match s.evaluate eq.firstLine (m.eliminate eq.firstLine left) with
    | (.error _, s) => s
    | (.ok v, s) =>
      match fillAfterEquals (s.lineAt eq.firstLine) (s.settings.write v) with
      | none => s
      | some line => { s.setLine eq.firstLine line with solved := s.solved + 1, changed := true }

/-! ### Definitions -/

/-- Checks a value against the limits of its name; a value outside is recorded as a failure. -/
def checkLimits (s : SolveState) (name : Text) (v : Float) (line : Nat) : Bool × SolveState :=
  match s.limitsOf name with
  | (none, s) => (true, s)
  | (some l, s) =>
    if l.admits v then (true, s)
    else (false, s.fail name (.outsideLimits (s.settings.write v) (s.settings.write l.low) (s.settings.write l.high)) line)

/-- Gives a defined name the value of its expression, which reads no unknowns. -/
def evaluateDefinition (s : SolveState) (line : Nat) (d : Definition) : SolveState :=
  match s.evaluate line d.expr with
  | (.error e, s) => s.fail d.name (.eval e) line
  | (.ok v, s) =>
    match s.checkLimits d.name v line with
    | (true, s) => s.assign d.name v
    | (false, s) => s

/-- Uses a definition; says whether the equation is still to be solved for an unknown. -/
def define (s : SolveState) (line : Nat) (d : Definition) : Bool × SolveState :=
  let c := s.contextAt line
  let closed := (c.unknowns [d.expr]).names.isEmpty
  if c.isKnown d.name || s.given.contains d.name then (!closed, s)
  else if closed then (false, s.evaluateDefinition line d)
  else (false, s)

/-! ### One unknown -/

/-- The difference of the sides when `x` is `v`. -/
def difference (c : Context) (x : Text) (left right : Expr) (v : Float) : Evaluation Float := do
  let c := c.bind x v
  return (← left.eval c) - (← right.eval c)

/-- The value of an evaluation; no number if it has none. -/
def valueOrNan (x : Evaluation Float) : Float :=
  match x.result with
  | .ok v => v
  | .error _ => Binary.nan

/-- The values at which an equation is tried out. -/
def trialPoints : Option Limits → List Float
  | none => [-7.3, -1.1, 0.37, 1.0, 2.9, 13.7, 101.3]
  | some l => (List.range 7).map fun k => l.low + (l.high - l.low) * Binary.ofNat k / 6.0

/-- The value counts as zero. -/
def vanishes (v : Float) : Bool := v.isFinite && v.abs ≤ 1e-12

/-- The points up to the first one at which `f` does not vanish. -/
def triedPoints (f : Float → Float) (points : List Float) : List Float :=
  points.takeWhile (fun p => vanishes (f p)) ++ (points.dropWhile fun p => vanishes (f p)).take 1

/-- Records what the evaluations at some points use. -/
def useAt (s : SolveState) (f : Float → Evaluation Float) (points : List Float) : SolveState :=
  points.foldl (fun s p => s.use (f p).used) s

/-- Solves an equation for `x`, its only unknown, unless every value solves it. -/
def solveFor (s : SolveState) (line : Nat) (x : Text) (left right : Expr) : SolveState :=
  let (limits, s) := s.limitsOf x
  let g := difference (s.contextAt line) x left right
  let f := fun v => valueOrNan (g v)
  let points := trialPoints limits
  let s := s.useAt g (triedPoints f points)
  if points.all fun p => vanishes (f p) then s.fail x .undetermined line
  else
    let (root, asked) := Root.find f limits
    let s := s.useAt g asked.toList
    match root with
    | .ok v => s.assign x v
    | .error e => s.fail x (.search e) line

/-- Solves an equation with one unknown. Of several unknowns all but one may be eliminated first. -/
def solveSides (s : SolveState) (line : Nat) (left right : Expr) (m : Eliminations) : SolveState :=
  match ((s.contextAt line).unknowns [left, right]).names with
  | [] => s
  | [x] => s.solveFor line x left right
  | _ =>
    let left := m.eliminate line left
    let right := m.eliminate line right
    match ((s.contextAt line).unknowns [left, right]).names with
    | [x] => s.solveFor line x left right
    | _ => s

/-! ### Rounds -/

/-- Goes on with an equation that has two sides. -/
def solveBoth (s : SolveState) (line : Nat) (sides : Sides) (right : Expr) (m : Eliminations) : SolveState :=
  match Definition.ofSides? sides with
  | none => s.solveSides line sides.left right m
  | some d =>
    match s.define line d with
    | (true, s) => s.solveSides line sides.left right m
    | (false, s) => s

/-- One equation. One that does not parse is passed over here. -/
def solveEquation (m : Eliminations) (s : SolveState) (eq : Equation) : SolveState :=
  match Equation.parseSides eq.text with
  | .error _ => s
  | .ok sides =>
    match sides.right with
    | none => s.complete eq sides.left m
    | some right => s.solveBoth eq.firstLine sides right m

/-- The names that the equations of a round can eliminate. -/
def eliminations (s : SolveState) (equations : List Equation) : Eliminations :=
  equations.foldl (fun m eq =>
    match Equation.parseSides eq.text with
    | .error _ => m
    | .ok sides => m.addSides (s.contextAt eq.firstLine) eq.firstLine sides) Table.empty

/-- All equations once. -/
def solveRound (s : SolveState) : SolveState :=
  let equations := Equation.find s.lines
  equations.foldl (solveEquation (s.eliminations equations)) { s with changed := false }

/-- At most `n` rounds, the last one being the first that finds nothing. -/
def solveRounds : Nat → SolveState → SolveState
  | 0, s => s
  | n + 1, s =>
    let s := s.solveRound
    if s.changed then solveRounds n s else s

def solveEquations (s : SolveState) : SolveState := solveRounds maxRounds s

end SolveState
end Worksheet
