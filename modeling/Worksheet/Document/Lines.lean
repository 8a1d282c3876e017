import Worksheet.Line.Classify

/-! The value lines of a document. Limits in square brackets may run over several lines; then the joined
    lines are read as one, and the value line belongs to the last of them, where the marker stands. -/

namespace Worksheet

/-- Limits are joined over this many lines at most. -/
def maxLimitSpan : Nat := 8

namespace Lines

/-- Opening brackets less closing ones. -/
def bracketBalance (line : Text) : Int :=
  (tokenize line).foldl (fun n t =>
    match t.kind with
    | .openBracket => n + 1
    | .closeBracket => n - 1
    | _ => n) 0

/-- The lines that close the brackets which `depth` counts, up to the one that closes the last; none if the
    next `room` lines do not. -/
def closing? (depth : Int) : Nat → List Text → Option (List Text)
  | 0, _ => none
  | _, [] => none
  | room + 1, l :: ls =>
    let depth := depth + bracketBalance l
    if depth ≤ 0 then some [l] else (closing? depth room ls).map (l :: ·)

/-- The value line of a line that leaves a bracket open together with those that close it, and the number of
    lines that it goes on for. -/
def joined? (line : Text) (rest : List Text) : Option (Nat × ValueLine) := do
  let depth := bracketBalance line
  if depth ≤ 0 then none
  else
    let more ← closing? depth (maxLimitSpan - 1) rest
    let before := ((line :: more).dropLast).flatMap (· ++ [' '])
    let found ← classifyLine (before ++ (more.getLast?).getD [])
    if before.length ≤ found.markerBegin then return (more.length, found.shift before.length) else none

/-- The value lines, where `held` is one that belongs to a later line, with the number of lines before that. -/
def classifyFrom (held : Option (Nat × ValueLine)) : List Text → List (Option ValueLine)
  | [] => []
  | l :: ls =>
    match held with
    | some (0, found) => some found :: classifyFrom none ls
    | some (n + 1, found) => none :: classifyFrom (some (n, found)) ls
    | none =>
      match joined? l ls with
      | some (n, found) => none :: classifyFrom (some (n - 1, found)) ls
      | none => classifyLine l :: classifyFrom none ls

/-- For every line its value line, if it has one. -/
def classify (lines : List Text) : List (Option ValueLine) := classifyFrom none lines

/-! ### Blocks -/

/-- The text up to the first `}`, which may stand on a later line, and the number of lines it goes on for.
    Comments do not count, and a blank stands for each line end. -/
def untilBrace (t : Text) : List Text → Option (Text × Nat)
  | [] => if t.contains '}' then some (t.takeWhile (· != '}'), 0) else none
  | l :: ls =>
    if t.contains '}' then some (t.takeWhile (· != '}'), 0)
    else (untilBrace (Classify.blankComments l) ls).map fun (r, n) => (t ++ ' ' :: r, n + 1)

/-- The tokens of a line that its rules look at. -/
def significantTokens (line : Text) : List Token := significant (tokenize line)

end Lines
end Worksheet
