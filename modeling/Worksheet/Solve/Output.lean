import Worksheet.Solve.Discover
import Worksheet.Solve.Equations

/-! The last passes: values are written behind the markers that ask for them, equations are checked, and the
    shared names that were used are listed. -/

namespace Worksheet.SolveState

/-! ### Values -/

/-- Writes a value into a value line. -/
def writeValue (s : SolveState) (line : Nat) (l : ValueLine) (v : Float) : SolveState :=
  s.setLine line (l.write (s.lineAt line) (s.settings.writeValue v l.decoration.style l.isFull l.decoration.base))

/-- Writes the value of an expression, unless the line holds one that is to stay. -/
def writeExpression (s : SolveState) (line : Nat) (l : ValueLine) (source : Text) : SolveState :=
  if !l.isOutput && !l.valueText.isEmpty then s
  else
    match s.evaluateText line source with
    | (.error p, s) => s.report line p
    | (.ok v, s) => s.writeValue line l v

/-- Reports that a name has no value: with the failure that is the reason, or else where an output asks for
    it. -/
def reportMissing (s : SolveState) (line : Nat) (name : Text) (l : ValueLine) : SolveState :=
  match s.failures.find? name with
  | some failure => s.report failure.line (.unsolved name failure.cause)
  | none => if l.isOutput then s.report line (.noValue name) else s

/-- Writes the value of a declared name into a line that has none. A name without a value is reported only
    once. -/
def writeDeclaration (s : SolveState) (reported : NameSet) (line : Nat) (name : Text) (l : ValueLine) :
    SolveState × NameSet :=
  if !l.valueText.isEmpty then (s, reported)
  else
    let looked := (s.contextAt line).lookup name
    let s := s.use looked.used
    match looked.result with
    | .ok (some v) => (s.writeValue line l v, reported)
    | _ => if reported.contains name then (s, reported) else (s.reportMissing line name l, reported.add name)

/-- Writes the value of one line. -/
def writeLine (x : SolveState × NameSet) (found : Option ValueLine × Nat) : SolveState × NameSet :=
  match found.1 with
  | none => x
  | some l =>
    match l.subject with
    | .expression source => (x.1.writeExpression found.2 l source, x.2)
    | .declaration name _ => x.1.writeDeclaration x.2 found.2 name l

/-- Writes all values. -/
def writeOutputs (s : SolveState) : SolveState :=
  let s := (List.range s.lines.length).foldl (spliceLine true) s
  ((Lines.classify s.lines).zipIdx.foldl writeLine (s, ∅)).1

/-! ### Balance -/

/-- The share of the greater side by which the sides may differ. -/
def balanceTolerance (settings : Settings) : Float :=
  Binary.greater 1e-10 (0.5 * Float.pow 10.0 (Binary.ofInt (-settings.places)))

/-- The two sides are near enough to each other. -/
def balances (settings : Settings) (l r : Float) : Bool :=
  let scale := Binary.greater (Binary.greater 1.0 l.abs) r.abs
  (l - r).abs ≤ balanceTolerance settings * scale

/-- Checks an incomplete equation: its expression has a value. -/
def checkLeft (s : SolveState) (line : Nat) (left : Expr) : SolveState :=
  match s.evaluate line left with
  | (.error e, s) => s.report line (.eval e)
  | (.ok _, s) => s

/-- Checks an equation without unknowns. -/
def checkSides (s : SolveState) (eq : Equation) (left right : Expr) : SolveState :=
  let both : Evaluation (Float × Float) := do
    let c := s.contextAt eq.firstLine
    return (← left.eval c, ← right.eval c)
  let s := s.use both.used
  match both.result with
  | .error e => s.report eq.firstLine (.eval e)
  | .ok (l, r) => if balances s.settings l r then s else s.report eq.firstLine (.unbalanced eq.text l r)

/-- Checks one equation. -/
def checkEquation (s : SolveState) (eq : Equation) : SolveState :=
  match Equation.parseSides eq.text with
  | .error e => s.report eq.firstLine (.parse e.cause)
  | .ok ⟨left, none⟩ => s.checkLeft eq.firstLine left
  | .ok ⟨left, some right⟩ =>
    if ((s.contextAt eq.firstLine).unknowns [left, right]).names.isEmpty then s.checkSides eq left right else s

def checkBalance (s : SolveState) : SolveState := (Equation.find s.lines).foldl checkEquation s

/-! ### References -/

/-- The line that lists a constant, unless the document gives the name a value. -/
def constantReference? (s : SolveState) (name : Text) : Option Text :=
  if s.context.hasVariable name then none
  else (s.context.constants.find? name).map fun c =>
    name ++ ": ".toList ++ writeFull c.value ++ (if c.comment.isEmpty then [] else " \"".toList ++ c.comment ++ ['"'])

/-- The definition of a function that is not the document's own. -/
def functionReference? (s : SolveState) (key : Text) : Option Text :=
  if s.localFunctions.contains key then none
  else ((s.context.functions.find? key).map UserFunction.source).filter (!·.isEmpty)

/-- What the document uses: constants, then functions. -/
def references (s : SolveState) : List Text :=
  s.used.constants.names.filterMap s.constantReference? ++ s.used.functions.names.filterMap s.functionReference?

/-- The lines up to the last one that is not blank, without the blanks at its end. -/
def trimLines (lines : List Text) : List Text :=
  match lines.reverse.dropWhile Text.isBlank with
  | [] => []
  | l :: ls => (Text.trimRight l :: ls).reverse

/-- Lists what the document uses in a section behind it, if it asks for that. -/
def appendReferences (s : SolveState) : SolveState :=
  let refs := s.references
  if !s.settings.appendReferences || refs.isEmpty then s
  else
    let body := trimLines s.lines
    { s with lines := body ++ (if body.isEmpty then [] else [[]]) ++ Reference.header :: refs }

end Worksheet.SolveState
