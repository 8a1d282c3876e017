import Worksheet.Solve.State

/-! The first pass over a document: its functions, its inline expressions as far as they have values, and
    its declarations in the order of the lines. -/

namespace Worksheet.SolveState

/-! ### Functions -/

/-- Adds a function of the document. -/
def loadFunction (s : SolveState) (f : FunctionSource) : SolveState :=
  let key := Text.lower f.name
  match parseExpr f.body with
  | .ok body =>
    { s with
      context := { s.context with functions := s.context.functions.insert key ⟨f.params, body, f.source⟩ }
      localFunctions := s.localFunctions.add key }
  | .error e => s.report f.firstLine (.invalidFunction f.name e.cause)

def loadFunctions (s : SolveState) : SolveState := (FunctionSource.find s.lines).foldl loadFunction s

/-! ### Inline expressions -/

/-- Places of an inline value. -/
def inlinePlaces : Int := 14

/-- Puts a value in place of an inline expression; without a value the line stays. -/
def spliceOne (line : Nat) (reporting : Bool) (s : SolveState) (e : Inline) : SolveState :=
  match s.evaluateText line e.source with
  | (.error p, s) => if reporting then s.report line p else s
  | (.ok v, s) => s.setLine line (e.replace (s.lineAt line) ('\\' :: writeNumber v inlinePlaces ++ ['\\']))

/-- Puts values in place of the inline expressions of a line, from the right. -/
def spliceLine (reporting : Bool) (s : SolveState) (line : Nat) : SolveState :=
  (Inline.find (s.lineAt line)).reverse.foldl (spliceOne line reporting) s

/-! ### Declarations -/

/-- Two values that count as one. -/
def sameValue (x y : Float) : Bool := x == y || (x - y).abs ≤ 1e-12 * Binary.greater x.abs y.abs

/-- The problem of a declaration whose value cannot be had. -/
def declarationProblem (name : Text) : Problem → Problem
  | .eval (.undefinedVariable missing) => .undefinedReference name missing
  | p => p

/-- Gives a declared name its value, unless it has another one that was not computed. -/
def accept (s : SolveState) (name : Text) (l : ValueLine) (line : Nat) (first : Option Nat) (v : Float) : SolveState :=
  let accepted : SolveState :=
    { s with
      context := s.context.setVariable name v
      given := if l.isOutput then s.given else s.given.add name }
  match first, s.context.values.find? name with
  | some first, some before =>
    if !l.isOutput && !sameValue before v then s.report line (.duplicate name first) else accepted
  | _, _ => accepted

/-- A declaration with a value. It hides the constant of its name from this line on. -/
def declareValue (s : SolveState) (name : Text) (l : ValueLine) (line : Nat) (first : Option Nat) : SolveState :=
  if s.context.constants.contains name && !s.settings.shadowConstants then s.report line (.constantRedeclared name)
  else
    let s := { s with context := s.context.shadow name line }
    match s.valueOf line l.decoration.style l.valueText with
    | (.error p, s) => s.report line (declarationProblem name p)
    | (.ok v, s) => s.accept name l line first v

/-- A declaration. An empty one only asks for a value. -/
def declare (s : SolveState) (name : Text) (l : ValueLine) (line : Nat) : SolveState :=
  let first := (s.sites.find? (·.name == name)).map Site.line
  let s := { s with sites := s.sites ++ [⟨name, l, line⟩] }
  if l.valueText.isEmpty then s else s.declareValue name l line first

/-- One line, with the value lines of the document as it is. -/
def discoverLine (x : SolveState × List (Option ValueLine)) (line : Nat) : SolveState × List (Option ValueLine) :=
  let s := x.1.spliceLine false line
  let found := if s.lineAt line = x.1.lineAt line then x.2 else Lines.classify s.lines
  match (found[line]?).join with
  | some l =>
    match l.name? with
    | some name => (s.declare name l line, found)
    | none => (s, found)
  | none => (s, found)

def discover (s : SolveState) : SolveState :=
  ((List.range s.lines.length).foldl discoverLine (s, Lines.classify s.lines)).1

/-- The first output line of every name that shows a value. -/
def shownIn (lines : List Text) : Table ValueLine :=
  (Lines.classify lines).foldl (fun table l =>
    match l with
    | some l =>
      match l.name? with
      | some name => if l.isOutput && !l.valueText.isEmpty then table.insertNew name l else table
      | none => table
    | none => table) ∅

end Worksheet.SolveState
