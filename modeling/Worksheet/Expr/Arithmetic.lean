import Worksheet.Number.Binary
import Worksheet.Expr.Operator

/-! What the operators compute. Bits are those of 64-bit words, and truth values are 1 and 0. -/

namespace Worksheet

/-- The value of a prefix operator, if its symbol has a meaning. -/
def PrefixOp.value? (op : PrefixOp) (v : Float) : Option Float :=
  match op with
  | negate => some (-v)
  | keep => some v
  | complement => some (Binary.ofWord (~~~ Binary.toWord v))
  | not => some (Binary.ofBool !Binary.truthy v)
  | other _ => none

namespace BinaryOp

/-- The distance of a shift: between 0 and 63. -/
def shiftDistance (w : Int64) : Int64 := if w < 0 then 0 else if 63 < w then 63 else w

/-- An operation on words. -/
def onWords (f : Int64 → Int64 → Int64) (l r : Float) : Float := Binary.ofWord (f (Binary.toWord l) (Binary.toWord r))

/-- The value of an operator on two numbers, if its symbol has a meaning. `divide` does not look at its
    divisor here. -/
def value? (op : BinaryOp) (l r : Float) : Option Float :=
  match op with
  | add => some (l + r)
  | subtract => some (l - r)
  | multiply => some (l * r)
  | divide => some (l / r)
  | modulo => some (Binary.remainder l r)
  | power => some (Float.pow l r)
  | bitAnd => some (onWords (· &&& ·) l r)
  | bitOr => some (onWords (· ||| ·) l r)
  | bitXor => some (onWords (· ^^^ ·) l r)
  | shiftLeft => some (onWords (fun a b => a <<< shiftDistance b) l r)
  | shiftRight => some (onWords (fun a b => a >>> shiftDistance b) l r)
  | equal => some (Binary.ofBool (l == r))
  | unequal => some (Binary.ofBool (l != r))
  | less => some (Binary.ofBool (l < r))
  | lessEqual => some (Binary.ofBool (l ≤ r))
  | greater => some (Binary.ofBool (l > r))
  | greaterEqual => some (Binary.ofBool (l ≥ r))
  | xor => some (Binary.ofBool (Binary.truthy l != Binary.truthy r))
  | and => some (Binary.ofBool (Binary.truthy l && Binary.truthy r))
  | or => some (Binary.ofBool (Binary.truthy l || Binary.truthy r))
  | other _ => none

end BinaryOp
end Worksheet
