import Worksheet.Number.Numeral

/-! A search for a root asks for values of a function and keeps a record of the points it asked for. The
    number of points is bounded; asking for one more ends the search. -/

namespace Worksheet

/-- Why a search found no root. -/
inductive RootError where
  | limitsNotFinite
  | noneBetween (low high : Float)
  | noBracket
  /-- The bound on the number of points is reached. -/
  | budgetSpent
  | tooManySteps
  | undefinedInside

namespace RootError

/-- The search ran out of points or of steps, rather than out of places to look at. -/
def isNoConvergence : RootError → Bool
  | budgetSpent | tooManySteps | undefinedInside => true
  | limitsNotFinite | noneBetween _ _ | noBracket => false

def message : RootError → Text
  | limitsNotFinite => "Search limits must be finite".toList
  | noneBetween low high =>
    "No root found between ".toList ++ (Numeral.fixed low 6).render ++ " and ".toList ++ (Numeral.fixed high 6).render
  | noBracket => "Could not find a bracketing interval".toList
  | budgetSpent => "No convergence after 2000 evaluations".toList
  | tooManySteps => "Maximum iterations exceeded".toList
  | undefinedInside => "Equation is undefined inside the search interval".toList

end RootError

/-- The points that one search may ask for. -/
def maxSamples : Nat := 2000

/-- A part of a search: from the points asked for so far to an answer and the points asked for in the end. -/
structure Search (α : Type) where
  run : Array Float → Except RootError α × Array Float

namespace Search
variable {α β : Type}

def andThen (x : Search α) (f : α → Search β) : Search β where
  run points :=
    match x.run points with
    | (.ok v, points) => (f v).run points
    | (.error e, points) => (.error e, points)

instance : Monad Search where
  pure v := ⟨fun points => (.ok v, points)⟩
  bind := andThen

def fail (e : RootError) : Search α := ⟨fun points => (.error e, points)⟩

/-- The value of `f` at `x`, if there is a point left to ask for. -/
def sample (f : Float → Float) (x : Float) : Search Float where
  run points := if points.size < maxSamples then (.ok (f x), points.push x) else (.error .budgetSpent, points)

/-- The first of the searches that finds something; later ones do not begin. -/
def firstFound (searches : List (Search (Option α))) : Search (Option α) :=
  match searches with
  | [] => return none
  | s :: rest => do
    match ← s with
    | some v => return some v
    | none => firstFound rest

end Search

namespace Root

/-! ### Signs -/

/-- Two finite values of opposite sign. -/
def signChange (fa fb : Float) : Bool := fa.isFinite && fb.isFinite && ((fa < 0 && fb > 0) || (fa > 0 && fb < 0))

/-- The distance from 1 to the next double. -/
def epsilon : Float := 2.220446049250313e-16

/-- No root is looked for farther out. -/
def searchBound : Float := 1e10

/-- The size of the function that small values are compared with. -/
def scaleOf (fx : Float) : Float := if fx.isFinite then Binary.greater 1.0 fx.abs else 1.0

/-- `fx` is as good as zero. -/
def nearZero (scale fx : Float) : Bool := fx.abs ≤ 1e-14 * scale

/-- What `confirmed` asks of the values beside a point: they show that the function crosses zero there, or
    touches it. -/
def crossesOrTouches (fl fx fr : Float) : Bool :=
  if fx == 0 then (fl != 0 && fr != 0) || signChange fl fr
  else signChange fl fx || signChange fx fr
    || (fl.isFinite && fr.isFinite && fl.abs > 4 * fx.abs && fr.abs > 4 * fx.abs)

/-- A small value counts as a root only where the function crosses or touches zero; a tail that runs out
    toward zero has none. -/
def confirmed (f : Float → Float) (x fx : Float) : Search Bool :=
  if !x.isFinite || x.abs > searchBound || !fx.isFinite then return false
  else do
    let h := 1e-6 * Binary.greater 1.0 x.abs
    let fl ← Search.sample f (x - h)
    let fr ← Search.sample f (x + h)
    return crossesOrTouches fl fx fr

/-- `x` if it is a confirmed root. -/
def confirm (f : Float → Float) (x fx : Float) : Search (Option Float) := do
  if ← confirmed f x fx then return some x else return none

end Root
end Worksheet
