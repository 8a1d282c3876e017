import Worksheet.Context.Frames
import Worksheet.Main
import Worksheet.Session
import Worksheet.Proofs.Expr.Grammar
import Worksheet.Proofs.Expr.ParseSound
import Worksheet.Proofs.Expr.ParseComplete
import Worksheet.Proofs.Expr.Parsing
import Worksheet.Proofs.Text
import Worksheet.Proofs.Number.Shape
import Worksheet.Proofs.Line.ReadBack
import Worksheet.Proofs.Line.Kept
import Worksheet.Proofs.Solve.Shown
import Worksheet.Proofs.Solve.Again
import Worksheet.Proofs.Solve.Rounds
import Worksheet.Proofs.Solve.Attempt
import Worksheet.Proofs.Solve.Orientation
import Worksheet.Proofs.Solve.Consistent
import Worksheet.Proofs.Token.Tiling
import Worksheet.Proofs.Token.LineByLine
import Worksheet.Proofs.Expr.Substitution
import Worksheet.Proofs.Solve.Knowledge
import Worksheet.Proofs.Root.Accepted
import Worksheet.Proofs.Root.Bracket
import Worksheet.Proofs.Number.Rounding
import Worksheet.Proofs.Root.Inside
import Worksheet.Proofs.Root.Within
import Worksheet.Proofs.Root.Budget
import Worksheet.Proofs.Solve.Evaluations
import Worksheet.Proofs.Expr.Shadowing
import Worksheet.Proofs.Solve.Positional
import Worksheet.Proofs.Solve.Usage
import Worksheet.Proofs.Token.Equals
import Worksheet.Proofs.Document.Framed
import Worksheet.Proofs.Expr.Moved
import Worksheet.Proofs.Solve.Framed
import Worksheet.Proofs.Document.Unmarked
import Worksheet.Proofs.Solve.Around
import Worksheet.Proofs.Expr.Unknowns
import Worksheet.Proofs.Expr.Literal
import Worksheet.Proofs.Document.Cleared
import Worksheet.Proofs.Number.Reading
import Worksheet.Proofs.Document.Sides
import Worksheet.Proofs.Document.Standing
import Worksheet.Proofs.Solve.Completions
import Worksheet.Proofs.Solve.Established
import Worksheet.Proofs.Number.Redisplay
import Worksheet.Proofs.Solve.Admitted
import Worksheet.Proofs.Document.Roles
import Worksheet.Proofs.Line.WholeExpression
import Worksheet.Proofs.Line.Limits
import Worksheet.Proofs.Document.Ranges
import Worksheet.Proofs.Document.Offsets
import Worksheet.Proofs.Number.Look
import Worksheet.Proofs.Expr.Comments
import Worksheet.Proofs.Frames
import Worksheet.Proofs.Number.Words
import Worksheet.Proofs.Number.Calendar
import Worksheet.Proofs.Solve.Chains
import Worksheet.Proofs.Document.Splice
import Worksheet.Proofs.Token.Blanked
import Worksheet.Proofs.Document.Uncommented
import Worksheet.Proofs.Document.Stretches
import Worksheet.Proofs.Expr.Understood
import Worksheet.Proofs.Line.Marker
import Worksheet.Proofs.Document.Sites
import Worksheet.Proofs.Solve.Rearranged
