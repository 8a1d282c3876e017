import Worksheet.Root.Search

/-! Narrowing a bracket: two points whose values have opposite signs. Brent's method narrows it by
    interpolation; where the function is undefined inside, bisection takes over and steps around. -/

namespace Worksheet.Root

/-- Steps of one narrowing. -/
def maxSteps : Nat := 200

/-! ### Bisection -/

/-- A bracket with the values at its ends. -/
structure Bracket where
  low : Float
  flow : Float
  high : Float
  fhigh : Float

/-- Where a bracket is divided: in the middle, or near it when the function is undefined there. -/
def fractions : List Float := [0.5, 0.25, 0.75, 0.125, 0.875, 0.375, 0.625]

/-- The first of the dividing points at which the function has a value. -/
def divide (f : Float → Float) (b : Bracket) : List Float → Search (Float × Float)
  | [] => Search.fail .undefinedInside
  | t :: ts => do
    let m := b.low + t * (b.high - b.low)
    let fm ← Search.sample f m
    if fm.isNaN then divide f b ts else return (m, fm)

/-- The part of a bracket that holds the sign change when it is divided at `m`. -/
def Bracket.half (b : Bracket) (m fm : Float) : Bracket :=
  if signChange b.flow fm then { b with high := m, fhigh := fm } else { b with low := m, flow := fm }

/-- The ends are as near to each other as doubles of their size allow. -/
def Bracket.isNarrow (b : Bracket) : Bool :=
  (b.high - b.low).abs ≤ 2.0 * epsilon * Binary.greater b.low.abs b.high.abs + 0.5e-15

/-- The end with the smaller value. -/
def Bracket.better (b : Bracket) : Float := if b.flow.abs ≤ b.fhigh.abs then b.low else b.high

/-- Divides a bracket at most `steps` times. -/
def bisect (f : Float → Float) : Nat → Bracket → Search Float
  | 0, _ => Search.fail .tooManySteps
  | steps + 1, b =>
    if b.isNarrow then return b.better
    else do
      let (m, fm) ← divide f b fractions
      if fm == 0 then return m else bisect f steps (b.half m fm)

/-! ### Brent's method -/

/-- The best point `b`, the point before it `a`, the point `c` on the other side of the root, the values
    there, and the last two moves. -/
structure Brent where
  a : Float
  fa : Float
  b : Float
  fb : Float
  c : Float
  fc : Float
  move : Float
  moveBefore : Float

namespace Brent

def start (a fa b fb : Float) : Brent := ⟨a, fa, b, fb, b, fb, b - a, b - a⟩

def sameSign (fx fy : Float) : Bool := (fx > 0 && fy > 0) || (fx < 0 && fy < 0)

/-- When `b` has come to the side of `c`, the point before it takes the place of `c`. -/
def rebracket (s : Brent) : Brent :=
  if sameSign s.fb s.fc then { s with c := s.a, fc := s.fa, move := s.b - s.a, moveBefore := s.b - s.a } else s

/-- The end with the smaller value becomes `b`. -/
def orient (s : Brent) : Brent :=
  if s.fc.abs < s.fb.abs then { s with a := s.b, fa := s.fb, b := s.c, fb := s.fc, c := s.b, fc := s.fb } else s

/-- The tolerance at `b`. -/
def tolerance (s : Brent) : Float := 2.0 * epsilon * s.b.abs + 0.5e-15

/-- Half of the way from `b` to `c`. -/
def halfway (s : Brent) : Float := 0.5 * (s.c - s.b)

/-- The bracket from `b` to `c` is narrow enough, or `b` is a root. -/
def isDone (s : Brent) : Bool := s.halfway.abs ≤ s.tolerance || s.fb == 0

/-- Numerator and denominator of the interpolated move: by the secant when only two points are distinct,
    else by the inverse parabola. -/
def interpolation (s : Brent) : Float × Float :=
  let xm := s.halfway
  let t := s.fb / s.fa
  if s.a == s.c then (2.0 * xm * t, 1.0 - t)
  else
    let q := s.fa / s.fc
    let r := s.fb / s.fc
    (t * (2.0 * xm * q * (q - r) - (s.b - s.a) * (r - 1.0)), (q - 1.0) * (r - 1.0) * (t - 1.0))

/-- The next move and the one before it: the interpolated one if it stays well inside and shrinks fast
    enough, else half of the bracket. -/
def nextMove (s : Brent) : Float × Float :=
  let xm := s.halfway
  let tol := s.tolerance
  if s.moveBefore.abs ≥ tol && s.fa.abs > s.fb.abs then
    let (p, q) := s.interpolation
    let q := if p > 0 then -q else q
    let p := p.abs
    let inside := 3.0 * xm * q - (tol * q).abs
    let shrinking := (s.moveBefore * q).abs
    if 2.0 * p < Binary.smaller inside shrinking then (p / q, s.move) else (xm, xm)
  else (xm, xm)

/-- The point that a move leads to; it is at least one tolerance away. -/
def target (s : Brent) (move : Float) : Float :=
  s.b + (if move.abs > s.tolerance then move else if s.halfway ≥ 0 then s.tolerance else -s.tolerance)

/-- The state behind the next move, with the value `f` has there. -/
def advance (f : Float → Float) (s : Brent) : Search Brent := do
  let (move, moveBefore) := s.nextMove
  let x := s.target move
  let fx ← Search.sample f x
  return { s with a := s.b, fa := s.fb, b := x, fb := fx, move, moveBefore }

/-- The bracket of a state whose newest point has no value. -/
def lastBracket (s : Brent) : Bracket := ⟨s.a, s.fa, s.c, s.fc⟩

/-- At most `steps` steps from a bracket. -/
def run (f : Float → Float) : Nat → Brent → Search Float
  | 0, _ => Search.fail .tooManySteps
  | steps + 1, s => do
    let s := s.rebracket.orient
    if s.isDone then return s.b
    else
      let s ← advance f s
      if s.fb.isNaN then bisect f maxSteps s.lastBracket else run f steps s

end Brent

/-- The root in a bracket, unless the sign only changes across a pole: there the value is greater than at
    the ends. -/
def refine (f : Float → Float) (a fa b fb : Float) : Search (Option Float) := do
  let r ← Brent.run f maxSteps (Brent.start a fa b fb)
  let fr ← Search.sample f r
  if fr.isFinite && fr.abs ≤ Binary.smaller fa.abs fb.abs then return some r else return none

end Worksheet.Root
