import Worksheet.Proofs.Solve.Outputs
import Worksheet.Proofs.Solve.References
import Worksheet.Proofs.Solve.Shown

/-! Solving a solved document again. The computed values that stand in a document have no part in what is solved,
    so a second solve can only find something new in what the first one has written elsewhere. Into a settled
    document it writes nothing else. -/

namespace Worksheet
open Text

/-- Every value that the lines `ls'` show at the outputs of the lines `ls` is read as a value. -/
def Lines.ReadsBack (ls ls' : List Text) : Prop :=
  ∀ x ∈ (ls.zip (classify ls)).zip ls', ∀ l ∈ x.1.2, l.isOutput = true →
    ∀ v, x.2 = l.write x.1.1 v → OutputText.split v = (v, [])

/-- A value that is read as one is legible also with a unit and comments behind it. -/
theorem Settings.Shows.legible {settings : Settings} {l : ValueLine} {v : Text} (h : settings.Shows l v)
    (hreads : OutputText.split v = (v, [])) : OutputText.Legible v := by
  obtain ⟨x, rfl⟩ := h
  have hproper := Written.proper_value x l.decoration.style l.isFull l.decoration.base settings
  exact OutputText.legible_render hproper (OutputText.legible_of_split hproper hreads)

/-- The state when all values are written. Checking the equations then only finds issues. -/
def written (t : Text) (c : Context) : SolveState :=
  (SolveState.start t c {}).loadFunctions.discover.solveEquations.writeOutputs

end Worksheet
