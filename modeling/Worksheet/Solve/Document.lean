import Worksheet.Solve.Output

/-! Solving a document: its old results are cleared, declarations are read, equations are solved, and the new
    results are written. -/

namespace Worksheet

/-- A solved document. -/
structure Solution where
  text : Text
  /-- The number of values that equations have given. -/
  solved : Nat
  issues : List Issue

namespace SolveState

/-- The state before the first pass, with computed values cleared away. -/
def start (text : Text) (c : Context) (settings : Settings) : SolveState :=
  let source := Reference.remove text
  { settings
    context := { c.setDegrees settings.degrees with shadowed := ∅ }
    lines := Text.lines (Clearing.output.clear source)
    shown := shownIn (Text.lines source) }

/-- All passes. -/
def run (s : SolveState) : SolveState :=
  s.loadFunctions.discover.solveEquations.writeOutputs.checkBalance.appendReferences

end SolveState

/-- Solves a document in a shared context, which stays as it is. -/
def solve (text : Text) (c : Context) (settings : Settings) : Solution :=
  let s := (SolveState.start text c settings).run
  ⟨Text.unlines s.lines, s.solved, s.issues⟩

end Worksheet
