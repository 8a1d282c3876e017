import Worksheet.Text
import Worksheet.Number.Gamma
import Worksheet.Number.Calendar

/-! The functions that every worksheet has, with the numbers of arguments that they take. -/

namespace Worksheet

/-- What a function may depend on besides its arguments. -/
structure Surroundings where
  /-- Angles are in degrees. -/
  degrees : Bool := false
  /-- The present moment as a date number. -/
  now : Float := 20250101.0
  /-- A random number between 0 and 1. -/
  draw : Float := 0.5

namespace Surroundings

def toRadians (s : Surroundings) (angle : Float) : Float := if s.degrees then angle * pi / 180.0 else angle

def ofRadians (s : Surroundings) (angle : Float) : Float := if s.degrees then angle * 180.0 / pi else angle

end Surroundings

/-- A function with its name in small letters. -/
structure Builtin where
  name : Text
  minArgs : Nat
  /-- No bound when absent. -/
  maxArgs : Option Nat
  apply : Surroundings → List Float → Float

namespace Builtin

/-! ### Functions of all arguments -/

/-- The first argument that is no number, or else the least one. -/
def minimum (xs : List Float) : Float :=
  if xs.any Float.isNaN then Binary.nan else xs.foldl (fun r v => if v < r then v else r) Binary.infinity

def maximum (xs : List Float) : Float :=
  if xs.any Float.isNaN then Binary.nan else xs.foldl (fun r v => if v > r then v else r) (-Binary.infinity)

def sum (xs : List Float) : Float := xs.foldl (· + ·) 0.0

/-- The argument that the first one counts; 0 if there is none. -/
def choose (xs : List Float) : Float :=
  match xs with
  | [] => Binary.nan
  | index :: rest =>
    let i := Binary.floor index
    if !(i ≥ 1) || i ≥ Binary.ofNat xs.length then 0.0 else (rest[Binary.wholePart i - 1]?).getD 0.0

def sign (x : Float) : Float := if x.isNaN then Binary.nan else if x > 0 then 1.0 else if x < 0 then -1.0 else 0.0

/-- `x` rounded to a number of places. -/
def roundTo (x places : Float) : Float :=
  let f := Float.pow 10.0 places
  Binary.round (x * f) / f

/-! ### The list -/

/-- A function of one argument. -/
def unary (name : String) (f : Surroundings → Float → Float) : Builtin :=
  ⟨name.toList, 1, some 1, fun s xs => match xs with | x :: _ => f s x | [] => Binary.nan⟩

/-- A function of one argument that depends on it alone. -/
def plain (name : String) (f : Float → Float) : Builtin := unary name fun _ => f

/-- A function of two arguments. -/
def binary (name : String) (f : Float → Float → Float) : Builtin :=
  ⟨name.toList, 2, some 2, fun _ xs => match xs with | x :: y :: _ => f x y | _ => Binary.nan⟩

/-- A function of one argument or two. -/
def oneOrTwo (name : String) (f : Surroundings → Float → Float) (g : Surroundings → Float → Float → Float) : Builtin :=
  ⟨name.toList, 1, some 2, fun s xs => match xs with | [x] => f s x | x :: y :: _ => g s x y | [] => Binary.nan⟩

/-- A value that is named like a function. -/
def constant (name : String) (f : Surroundings → Float) : Builtin := ⟨name.toList, 0, some 0, fun s _ => f s⟩

/-- A function of any number of arguments from `least` on. -/
def variadic (name : String) (least : Nat) (f : List Float → Float) : Builtin := ⟨name.toList, least, none, fun _ => f⟩

def all : List Builtin :=
  [ plain "abs" Float.abs
  , plain "sign" sign
  , plain "int" Binary.truncate
  , plain "frac" fun x => x - Binary.truncate x
  , oneOrTwo "round" (fun _ x => Binary.round x) (fun _ x n => roundTo x n)
  , plain "floor" Binary.floor
  , plain "ceil" Binary.ceil
  , plain "sqrt" Float.sqrt
  , plain "cbrt" Float.cbrt
  , binary "root" fun x n => Float.pow x (1.0 / n)
  , plain "exp" Float.exp
  , plain "ln" Float.log
  , oneOrTwo "log" (fun _ x => Float.log10 x) (fun _ x b => Float.log x / Float.log b)
  , plain "fact" Gamma.factorial
  , constant "pi" fun _ => pi
  , unary "sin" fun s x => Float.sin (s.toRadians x)
  , unary "cos" fun s x => Float.cos (s.toRadians x)
  , unary "tan" fun s x => Float.tan (s.toRadians x)
  , unary "asin" fun s x => s.ofRadians (Float.asin x)
  , unary "acos" fun s x => s.ofRadians (Float.acos x)
  , oneOrTwo "atan" (fun s x => s.ofRadians (Float.atan x)) (fun s y x => s.ofRadians (Float.atan2 y x))
  , plain "sinh" Float.sinh
  , plain "cosh" Float.cosh
  , plain "tanh" Float.tanh
  , plain "asinh" Float.asinh
  , plain "acosh" Float.acosh
  , plain "atanh" Float.atanh
  , plain "radians" fun x => x * pi / 180.0
  , plain "degrees" fun x => x * 180.0 / pi
  , constant "now" Surroundings.now
  , binary "days" fun x y => Calendar.julianOf y - Calendar.julianOf x
  , plain "jdays" Calendar.julianOf
  , plain "date" Calendar.dateOf
  , plain "jdate" Calendar.dateOf
  , plain "year" fun x => Binary.ofInt (Calendar.ofNumber x).year
  , plain "month" fun x => Binary.ofInt (Calendar.ofNumber x).month
  , plain "day" fun x => Binary.ofInt (Calendar.ofNumber x).day
  , plain "weekday" Calendar.weekday
  , plain "hour" fun x => Binary.ofInt (Calendar.ofNumber x).hour
  , plain "minute" fun x => Binary.ofInt (Calendar.ofNumber x).minute
  , plain "second" fun x => Binary.ofInt (Calendar.ofNumber x).second
  , plain "hours" Calendar.hours
  , plain "hms" Calendar.timeOf
  , ⟨"if".toList, 2, some 3, fun _ xs =>
      match xs with
      | c :: x :: rest => if Binary.truthy c then x else rest.head?.getD 0.0
      | _ => Binary.nan⟩
  , variadic "choose" 1 choose
  , variadic "min" 1 minimum
  , variadic "max" 1 maximum
  , variadic "avg" 1 fun xs => sum xs / Binary.ofNat xs.length
  , variadic "sum" 0 sum
  , ⟨"rand".toList, 0, some 2, fun s xs =>
      match xs with
      | [] => s.draw
      | [x] => s.draw * x
      | x :: y :: _ => x + s.draw * (y - x)⟩ ]

/-- The function of a name in small letters. -/
def find? (name : Text) : Option Builtin := all.find? (·.name == name)

/-- It can stand for a value, without parentheses. -/
def isValue (b : Builtin) : Bool := b.minArgs == 0 && b.maxArgs.isSome

/-- The function that stands for a value under `name`, in letters of either case. -/
def value? (name : Text) : Option Builtin := (find? (Text.lower name)).filter isValue

end Builtin
end Worksheet
