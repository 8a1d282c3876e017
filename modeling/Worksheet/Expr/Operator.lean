import Worksheet.Text

/-! The operators of expressions with their symbols and binding strength. -/

namespace Worksheet

/-- An operator before its operand. -/
inductive PrefixOp where
  | negate | keep | complement | not
  /-- A symbol without a meaning. -/
  | other (symbol : Text)
  deriving DecidableEq, Repr

namespace PrefixOp

def symbol : PrefixOp → Text
  | negate => ['-']
  | keep => ['+']
  | complement => ['~']
  | not => ['!']
  | other symbol => symbol

/-- The operators with a meaning. -/
def known : List PrefixOp := [negate, keep, complement, not]

/-- The operator that a symbol stands for. -/
def ofSymbol? (t : Text) : Option PrefixOp := known.find? (·.symbol == t)

/-- How tightly a prefix operator binds: more than every binary one. -/
def level : Nat := 10

theorem mem_known_of_ofSymbol? {t : Text} {op : PrefixOp} (h : ofSymbol? t = some op) : op ∈ known :=
  List.mem_of_find?_eq_some h

theorem symbol_of_ofSymbol? {t : Text} {op : PrefixOp} (h : ofSymbol? t = some op) : op.symbol = t := by
  simpa using List.find?_some h

end PrefixOp

/-- An operator between two operands. -/
inductive BinaryOp where
  | or | xor | and
  | equal | unequal | less | lessEqual | greater | greaterEqual
  | bitOr | bitXor | bitAnd
  | shiftLeft | shiftRight
  | add | subtract
  | multiply | divide | modulo
  | power
  /-- A symbol without a meaning. -/
  | other (symbol : Text)
  deriving DecidableEq, Repr

namespace BinaryOp

def symbol : BinaryOp → Text
  | or => ['|', '|']
  | xor => ['^', '^']
  | and => ['&', '&']
  | equal => ['=', '=']
  | unequal => ['!', '=']
  | less => ['<']
  | lessEqual => ['<', '=']
  | greater => ['>']
  | greaterEqual => ['>', '=']
  | bitOr => ['|']
  | bitXor => ['^']
  | bitAnd => ['&']
  | shiftLeft => ['<', '<']
  | shiftRight => ['>', '>']
  | add => ['+']
  | subtract => ['-']
  | multiply => ['*']
  | divide => ['/']
  | modulo => ['%']
  | power => ['*', '*']
  | other symbol => symbol

/-- The operators with a meaning. -/
def known : List BinaryOp :=
  [or, xor, and, equal, unequal, less, lessEqual, greater, greaterEqual, bitOr, bitXor, bitAnd, shiftLeft, shiftRight,
    add, subtract, multiply, divide, modulo, power]

/-- The operator that a symbol stands for. -/
def ofSymbol? (t : Text) : Option BinaryOp := known.find? (·.symbol == t)

/-- How tightly an operator binds; the greater level binds tighter. -/
def level : BinaryOp → Nat
  | or | xor => 1
  | and => 2
  | equal | unequal | less | lessEqual | greater | greaterEqual => 3
  | bitOr | bitXor => 4
  | bitAnd => 5
  | shiftLeft | shiftRight => 6
  | add | subtract => 7
  | multiply | divide | modulo => 8
  | power => 9
  | other _ => 0

/-- A chain of the operator is grouped from the right. -/
def rightAssociative : BinaryOp → Bool
  | power => true
  | _ => false

theorem mem_known_of_ofSymbol? {t : Text} {op : BinaryOp} (h : ofSymbol? t = some op) : op ∈ known :=
  List.mem_of_find?_eq_some h

theorem symbol_of_ofSymbol? {t : Text} {op : BinaryOp} (h : ofSymbol? t = some op) : op.symbol = t := by
  simpa using List.find?_some h

theorem level_pos_of_mem_known : ∀ op ∈ known, 0 < level op := by decide

end BinaryOp
end Worksheet
