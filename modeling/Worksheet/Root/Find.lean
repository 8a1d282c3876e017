import Worksheet.Root.Bracket

/-! Finding a root. Between limits the ends and 64 intervals are looked at in turn. Without limits the
    search starts at 1 with Newton's method, then widens an interval, and at last walks over the whole
    numbers up to 100 and over powers of ten up to `10 ^ 10`. Undefined points are stepped over. -/

namespace Worksheet

/-- Where a root is looked for. -/
structure Limits where
  low : Float
  high : Float

namespace Root

/-! ### Sweeping over points -/

/-- A point with the value there. -/
structure Sampled where
  x : Float
  fx : Float

/-- A point at which the value is zero, if it is a confirmed root. -/
def atZero (f : Float → Float) (x fx : Float) : Search (Option Float) := if fx == 0 then confirm f x fx else pure none

/-- What a point after `before` shows: a confirmed root there, or one refined between the two. -/
def inspect (f : Float → Float) (before : Sampled) (x fx : Float) : Search (Option Float) := do
  let here ← atZero f x fx
  match here with
  | some r => return some r
  | none => if signChange before.fx fx then refine f before.x before.fx x fx else return none

/-- The first root over increasing points behind `before`. -/
def sweepFrom (f : Float → Float) (before : Sampled) : List Float → Search (Option Float)
  | [] => return none
  | x :: xs => do
    let fx ← Search.sample f x
    match ← inspect f before x fx with
    | some r => return some r
    | none => sweepFrom f (if fx.isFinite then ⟨x, fx⟩ else before) xs

def sweep (f : Float → Float) : List Float → Search (Option Float)
  | [] => return none
  | x :: xs => do sweepFrom f ⟨x, ← Search.sample f x⟩ xs

/-! ### Between limits -/

/-- Intervals between the limits. -/
def intervals : Nat := 64

/-- The point nearest to a root so far, by its value. -/
def Sampled.better (best : Sampled) (x fx : Float) : Sampled :=
  if !best.fx.isFinite || fx.abs < best.fx.abs then ⟨x, fx⟩ else best

/-- The points of the scan but for the low end, of which the last is the high end, already asked for. -/
def scanPoints (low high : Float) : List Float :=
  (List.range (intervals - 1)).map fun i => low + Binary.ofNat (i + 1) * ((high - low) / Binary.ofNat intervals)

/-- Looks at the points behind `before`; without a root, gives the best point. -/
def scanFrom (f : Float → Float) (high : Sampled) (before best : Sampled) : List Float → Search (Sampled × Option Float)
  | [] => do
    match ← inspect f before high.x high.fx with
    | some r => return (best, some r)
    | none => return (if high.fx.isFinite then best.better high.x high.fx else best, none)
  | x :: xs => do
    let fx ← Search.sample f x
    match ← inspect f before x fx with
    | some r => return (best, some r)
    | none => if fx.isFinite then scanFrom f high ⟨x, fx⟩ (best.better x fx) xs else scanFrom f high before best xs

/-- A root between two ends whose values are known. -/
def between (f : Float → Float) (low high : Sampled) : Search Float := do
  let scale := scaleOf (if low.fx.isFinite then low.fx else high.fx)
  let found ← Search.firstFound
    [ atZero f low.x low.fx
    , atZero f high.x high.fx
    , if signChange low.fx high.fx then refine f low.x low.fx high.x high.fx else pure none ]
  match found with
  | some r => return r
  | none =>
    let (best, found) ← scanFrom f high low low (scanPoints low.x high.x)
    match found with
    | some r => return r
    | none =>
      let near ← if best.fx.isFinite && nearZero scale best.fx then confirm f best.x best.fx else pure none
      match near with
      | some r => return r
      | none => Search.fail (.noneBetween low.x high.x)

/-- A root between two limits, in either order. -/
def within (f : Float → Float) (limits : Limits) : Search Float :=
  if !limits.low.isFinite || !limits.high.isFinite then Search.fail .limitsNotFinite
  else do
    let low := if limits.low > limits.high then limits.high else limits.low
    let high := if limits.low > limits.high then limits.low else limits.high
    let flow ← Search.sample f low
    let fhigh ← Search.sample f high
    between f ⟨low, flow⟩ ⟨high, fhigh⟩

/-! ### Newton's method -/

/-- Where a damped step ends: across a sign change, or at a point with a value that is not greater. -/
inductive Landing where
  | across (p : Sampled)
  | landed (p : Sampled)

/-- Halves a step at most `halvings` times, as long as it leads to a greater value or to none. -/
def land (f : Float → Float) (start : Sampled) : Nat → Float → Sampled → Search Landing
  | 0, _, p => return .landed p
  | halvings + 1, dx, p =>
    if !p.fx.isFinite || p.fx.abs > start.fx.abs then do
      let dx := dx * 0.5
      let x := start.x - dx
      let fx ← Search.sample f x
      if signChange start.fx fx then return .across ⟨x, fx⟩ else land f start halvings dx ⟨x, fx⟩
    else return .landed p

/-- The step is too small to go on, and the value is small. -/
def hasConverged (scale : Float) (p q : Sampled) : Bool :=
  (q.x - p.x).abs ≤ 1e-14 * Binary.greater 1.0 q.x.abs && q.fx.abs ≤ 1e-9 * scale

/-- The slope at a point, from two points beside it. -/
def slope (f : Float → Float) (x : Float) : Search Float := do
  let h := 1e-7 * Binary.greater 1.0 x.abs
  let fr ← Search.sample f (x + h)
  let fl ← Search.sample f (x - h)
  return (fr - fl) / (2.0 * h)

/-- The end of the step from `p` along the slope `d`. -/
def newtonStep (f : Float → Float) (p : Sampled) (d : Float) : Search Landing := do
  let dx := p.fx / d
  let x := p.x - dx
  let fx ← Search.sample f x
  if signChange p.fx fx then return .across ⟨x, fx⟩ else land f p 30 dx ⟨x, fx⟩

/-- At most `steps` steps of Newton's method. -/
def newton (f : Float → Float) (scale : Float) : Nat → Sampled → Search (Option Float)
  | 0, _ => return none
  | steps + 1, p => do
    let d ← slope f p.x
    if !d.isFinite || d == 0 then return none
    else
      match ← newtonStep f p d with
      | .across q => refine f p.x p.fx q.x q.fx
      | .landed q =>
        if !q.fx.isFinite || q.x.abs > searchBound then return none
        else
          let found ←
            if q.fx == 0 || nearZero scale q.fx || hasConverged scale p q then confirm f q.x q.fx else pure none
          match found with
          | some r => return some r
          | none => newton f scale steps q

/-! ### A widening interval -/

/-- The interval around the start, widened toward the end with the smaller value at most `steps` times. -/
def widen (f : Float → Float) : Nat → Sampled → Sampled → Search (Option Float)
  | 0, _, _ => return none
  | steps + 1, a, b =>
    if a.fx == 0 then confirm f a.x a.fx
    else if b.fx == 0 then confirm f b.x b.fx
    else if signChange a.fx b.fx then refine f a.x a.fx b.x b.fx
    else do
      let middle := 0.5 * (a.x + b.x)
      let width := 1.6 * (b.x - a.x)
      if !a.fx.isFinite then widen f steps ⟨middle, ← Search.sample f middle⟩ b
      else if !b.fx.isFinite then widen f steps a ⟨middle, ← Search.sample f middle⟩
      else if a.fx.abs < b.fx.abs then
        let x := Binary.greater (a.x - width) (-searchBound)
        widen f steps ⟨x, ← Search.sample f x⟩ b
      else
        let x := Binary.smaller (b.x + width) searchBound
        widen f steps a ⟨x, ← Search.sample f x⟩

def widening (f : Float → Float) : Search (Option Float) := do
  let fa ← Search.sample f 0.5
  let fb ← Search.sample f 2.0
  widen f 50 ⟨0.5, fa⟩ ⟨2.0, fb⟩

/-! ### Without limits -/

/-- The whole numbers from -100 to 100. -/
def wholePoints : List Float := (List.range 201).map fun (i : Nat) => Binary.ofInt ((i : Int) - 100)

/-- Powers of ten from `10 ^ -6` to `10 ^ 10`. -/
def powers : List Float :=
  [1e-6, 1e-5, 1e-4, 1e-3, 1e-2, 1e-1, 1e0, 1e1, 1e2, 1e3, 1e4, 1e5, 1e6, 1e7, 1e8, 1e9, 1e10]

/-- Zero and the powers of ten with both signs, in increasing order. -/
def powerPoints : List Float := (powers.map (-·)).reverse ++ 0.0 :: powers

/-- A root anywhere. -/
def anywhere (f : Float → Float) : Search Float := do
  let fx ← Search.sample f 1.0
  let scale := scaleOf fx
  let found ← Search.firstFound
    [ atZero f 1.0 fx
    , if fx.isFinite then newton f scale 60 ⟨1.0, fx⟩ else pure none
    , widening f
    , sweep f wholePoints
    , sweep f powerPoints ]
  match found with
  | some r => return r
  | none => Search.fail .noBracket

/-- A root of `f`, between limits if there are any. -/
def search (f : Float → Float) (limits : Option Limits) : Search Float :=
  match limits with
  | some l => within f l
  | none => anywhere f

/-- The points that a search asks for, and its root. -/
def find (f : Float → Float) (limits : Option Limits) : Except RootError Float × Array Float := (search f limits).run #[]

end Root
end Worksheet
