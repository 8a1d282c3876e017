import Worksheet.Document.Lines

/-! Taking values out of a document. -/

namespace Worksheet

/-- Which values are taken out. -/
inductive Clearing where
  /-- Values of input markers and all computed values. -/
  | input
  /-- All computed values. -/
  | output
  /-- The values of all value lines. -/
  | all
  deriving DecidableEq, Repr

namespace Clearing

/-- A value line loses its value. -/
def takes (c : Clearing) (l : ValueLine) : Bool :=
  match c, l.subject with
  | all, _ => true
  | output, _ => l.isOutput
  | input, .declaration _ _ => l.isOutput || l.marker == .leftArrow
  | input, .expression _ => l.isOutput

/-- A line without its value, if it has one that is taken. -/
def clearLine (c : Clearing) (line : Text) (found : Option ValueLine) : Text :=
  match found with
  | some l => if !l.valueText.isEmpty && c.takes l then l.write line [] else line
  | none => line

def clearLines (c : Clearing) (lines : List Text) : List Text := List.zipWith c.clearLine lines (Lines.classify lines)

/-- The text of a document without the values that are taken. -/
def clear (c : Clearing) (text : Text) : Text := Text.unlines (c.clearLines (Text.lines text))

end Clearing
end Worksheet
