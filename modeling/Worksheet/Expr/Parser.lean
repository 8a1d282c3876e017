import Worksheet.Expr.Basic
import Worksheet.Token.Lexer

/-! From tokens to an expression tree. Operands that are complete wait on a stack, the newest first, and so
    do operators that still lack an operand and parentheses that are still open; an operator of a lower
    level, a separator or a closing parenthesis completes those above it. `step` takes one token, and
    `parseTokens` folds it over the tokens before the end of the text. -/

namespace Worksheet

/-- Why tokens are no expression. -/
inductive ParseCause where
  | fault (cause : Token.Fault) (lexeme : Text)
  | unexpectedNumber (lexeme : Text)
  | unexpectedName (lexeme : Text)
  | unexpectedOperator (symbol : Text)
  | unexpectedParen
  /-- A token that no expression has. -/
  | unexpectedToken (text : Text)
  | missingArgument (before : Text)
  | separatorOutsideCall (separator : Text)
  | unmatchedClose
  | unmatchedOpen
  | notEnoughArguments (function : Text)
  | emptyParentheses
  | missingOperand (symbol : Text)
  | emptyExpression
  | unexpectedEnd
  | malformed
  /-- An equation without `=`. -/
  | noEquals
  /-- The body of a shared function is no expression. -/
  | inFunction (function : Text) (cause : ParseCause)

/-- The wording of a cause. A message ends before a NUL. -/
def ParseCause.message : ParseCause → Text
  | fault cause lexeme => Text.untilNul (cause.message lexeme)
  | unexpectedNumber lexeme => "Unexpected number '".toList ++ lexeme ++ ['\'']
  | unexpectedName lexeme => "Unexpected name '".toList ++ lexeme ++ ['\'']
  | unexpectedOperator symbol => "Unexpected operator '".toList ++ symbol ++ ['\'']
  | unexpectedParen => "Unexpected '('".toList
  | unexpectedToken text => "Unexpected '".toList ++ text ++ "' in expression".toList
  | missingArgument before => "Missing argument before '".toList ++ before ++ ['\'']
  | separatorOutsideCall separator => '\'' :: separator ++ "' not within function call".toList
  | unmatchedClose => "Mismatched ')'".toList
  | unmatchedOpen => "Mismatched '('".toList
  | notEnoughArguments function => "Not enough arguments for '".toList ++ function ++ ['\'']
  | emptyParentheses => "Empty parentheses".toList
  | missingOperand symbol => "Missing operand for '".toList ++ symbol ++ ['\'']
  | emptyExpression => "Empty expression".toList
  | unexpectedEnd => "Unexpected end of expression".toList
  | malformed => "Malformed expression".toList
  | noEquals => "Equation has no '='".toList
  | inFunction function cause => "Function ".toList ++ function ++ ':' :: ' ' :: cause.message

/-- A cause with the place it was found at. -/
structure ParseError where
  cause : ParseCause
  line : Nat
  col : Nat

def ParseError.message (e : ParseError) : Text := e.cause.message

namespace Parser

/-! ### State -/

/-- A line and a column. -/
structure Place where
  line : Nat := 1
  col : Nat := 1

/-- What waits for what follows. -/
inductive Pending where
  | prefixOp (op : PrefixOp) (place : Place)
  | binaryOp (op : BinaryOp) (place : Place)
  /-- An open parenthesis. -/
  | group (place : Place)
  /-- The open parenthesis of a call. -/
  | call (function : Text) (place : Place)

/-- A call whose parenthesis is open, with the number of its arguments that a separator has closed. -/
structure Frame where
  function : Text
  closedArgs : Nat

/-- What the last token was, as far as the next one depends on it. -/
inductive Last where
  | name | suffix | other
  deriving DecidableEq

structure State where
  /-- Complete operands, the newest first. -/
  operands : List Expr := []
  /-- Operators and open parentheses, the newest first. -/
  pending : List Pending := []
  /-- The open calls, the newest first. -/
  frames : List Frame := []
  /-- An operand has to come next. -/
  operandDue : Bool := true
  last : Last := .other
  /-- The place behind the last token. -/
  reached : Place := {}

/-! ### Completing operators -/

def fail {α : Type} (cause : ParseCause) (p : Place) : Except ParseError α := .error ⟨cause, p.line, p.col⟩

def placeOf (t : Token) : Place := ⟨t.line, t.col⟩

def placeBehind (t : Token) : Place := ⟨t.line, t.endCol⟩

/-- A prefix operator takes the newest operand. -/
def applyPrefix (op : PrefixOp) (p : Place) : List Expr → Except ParseError (List Expr)
  | e :: es => .ok (.unary op e :: es)
  | [] => fail (.missingOperand op.symbol) p

/-- A binary operator takes the two newest operands. -/
def applyBinary (op : BinaryOp) (p : Place) : List Expr → Except ParseError (List Expr)
  | r :: l :: es => .ok (.binary op l r :: es)
  | _ => fail (.missingOperand op.symbol) p

/-- Completes the operators above the newest open parenthesis. -/
def unwind (operands : List Expr) : List Pending → Except ParseError (List Expr × List Pending)
  | .prefixOp op p :: rest =>
    match applyPrefix op p operands with
    | .ok operands => unwind operands rest
    | .error e => .error e
  | .binaryOp op p :: rest =>
    match applyBinary op p operands with
    | .ok operands => unwind operands rest
    | .error e => .error e
  | pending => .ok (operands, pending)

/-- An operator of `level` is completed before `next` takes its left operand. -/
def yields (next : BinaryOp) (level : Nat) : Bool :=
  if next.rightAssociative then decide (next.level < level) else decide (next.level ≤ level)

/-- Completes the operators that bind at least as tightly as the operator that comes next. -/
def reduce (next : BinaryOp) (operands : List Expr) : List Pending → Except ParseError (List Expr × List Pending)
  | .prefixOp op p :: rest =>
    if yields next PrefixOp.level then
      match applyPrefix op p operands with
      | .ok operands => reduce next operands rest
      | .error e => .error e
    else .ok (operands, .prefixOp op p :: rest)
  | .binaryOp op p :: rest =>
    if yields next op.level then
      match applyBinary op p operands with
      | .ok operands => reduce next operands rest
      | .error e => .error e
    else .ok (operands, .binaryOp op p :: rest)
  | pending => .ok (operands, pending)

/-! ### Tokens -/

/-- An operand by itself. -/
def pushOperand (s : State) (e : Expr) (last : Last) : State :=
  { s with operands := e :: s.operands, operandDue := false, last }

/-- A name right before `(` was no variable but the name of the call. -/
def openCall (s : State) (t : Token) : Except ParseError State :=
  match s.operands with
  | .var f :: es =>
    .ok { s with
      operands := es
      pending := .call f (placeOf t) :: s.pending
      frames := ⟨f, 0⟩ :: s.frames
      operandDue := true
      last := .other }
  | _ => fail .unexpectedParen (placeOf t)

/-- Closes the newest call: its frame says how many operands are its arguments. -/
def closeCall (s : State) (t : Token) (noOperand : Bool) (operands : List Expr) (pending : List Pending) :
    Except ParseError State :=
  match s.frames with
  | [] => fail .malformed (placeOf t)
  | frame :: frames =>
    if noOperand && decide (0 < frame.closedArgs) then fail (.missingArgument [')']) (placeOf t)
    else
      let count := if noOperand then 0 else frame.closedArgs + 1
      if operands.length < count then fail (.notEnoughArguments frame.function) (placeOf t)
      else
        .ok { s with
          operands := .call frame.function (operands.take count).reverse :: operands.drop count
          pending
          frames
          operandDue := false }

/-- A closing parenthesis. -/
def close (s : State) (t : Token) : Except ParseError State :=
  match unwind s.operands s.pending with
  | .error e => .error e
  | .ok (operands, .call _ _ :: pending) => closeCall s t s.operandDue operands pending
  | .ok (operands, .group _ :: pending) =>
    if s.operandDue then fail .emptyParentheses (placeOf t)
    else .ok { s with operands, pending, operandDue := false }
  | .ok _ => fail .unmatchedClose (placeOf t)

/-- A separator closes an argument of the newest call. -/
def separate (s : State) (t : Token) : Except ParseError State :=
  if s.operandDue then fail (.missingArgument t.text) (placeOf t)
  else
    match unwind s.operands s.pending with
    | .error e => .error e
    | .ok (operands, .call f p :: pending) =>
      match s.frames with
      | [] => fail .malformed (placeOf t)
      | frame :: frames =>
        .ok { s with
          operands
          pending := .call f p :: pending
          frames := { frame with closedArgs := frame.closedArgs + 1 } :: frames
          operandDue := true }
    | .ok _ => fail (.separatorOutsideCall t.text) (placeOf t)

/-- An operator: a prefix one where an operand is due, a binary one behind an operand. -/
def operate (s : State) (t : Token) : Except ParseError State :=
  if s.operandDue then
    match PrefixOp.ofSymbol? t.lexeme with
    | some op => .ok { s with pending := .prefixOp op (placeOf t) :: s.pending }
    | none => fail (.unexpectedOperator t.lexeme) (placeOf t)
  else
    match BinaryOp.ofSymbol? t.lexeme with
    | none => fail (.unexpectedOperator t.lexeme) (placeOf t)
    | some op =>
      match reduce op s.operands s.pending with
      | .error e => .error e
      | .ok (operands, pending) =>
        .ok { s with operands, pending := .binaryOp op (placeOf t) :: pending, operandDue := true }

/-- A token that is read wherever it stands, `s` knowing the place behind it. -/
def read (s : State) (t : Token) : Except ParseError State :=
  match t.kind with
  | .fault cause => fail (.fault cause t.lexeme) (placeOf t)
  | .number v base _ =>
    if s.operandDue then .ok (pushOperand s (.number v base) .other) else fail (.unexpectedNumber t.lexeme) (placeOf t)
  | .name =>
    if s.operandDue then .ok (pushOperand s (.var t.lexeme) .name) else fail (.unexpectedName t.lexeme) (placeOf t)
  | .openParen =>
    if s.operandDue then .ok { s with pending := .group (placeOf t) :: s.pending }
    else fail .unexpectedParen (placeOf t)
  | .semicolon | .comma => separate s t
  | .closeParen => close s t
  | .operator => operate s t
  | _ => fail (.unexpectedToken t.text) (placeOf t)

/-- One token. Suffixes right behind a name change nothing, and comments and line ends are passed over. -/
def step (s : State) (t : Token) : Except ParseError State :=
  match t.kind, s.last with
  | .comment, _ | .newline, _ => .ok { s with last := .other }
  | .suffix _, .name | .suffix _, .suffix => .ok { s with last := .suffix }
  | .openParen, .name => openCall s t
  | _, _ => read { s with last := .other, reached := placeBehind t } t

/-! ### The end -/

/-- Completes all operators that wait; no parenthesis may be open. -/
def complete (s : State) : Except ParseError Expr :=
  match unwind s.operands s.pending with
  | .error e => .error e
  | .ok (_, .group p :: _) | .ok (_, .call _ p :: _) => fail .unmatchedOpen p
  | .ok ([e], _) => .ok e
  | .ok _ => fail .malformed s.reached

/-- The expression that the tokens so far make. -/
def conclude (s : State) : Except ParseError Expr :=
  if s.operandDue then
    if s.operands.isEmpty && s.pending.isEmpty then fail .emptyExpression s.reached
    else fail .unexpectedEnd s.reached
  else complete s

end Parser

/-- The expression that the tokens before the end of the text make. -/
def parseTokens (ts : List Token) : Except ParseError Expr :=
  match (ts.takeWhile (!·.kind.isFinish)).foldlM Parser.step {} with
  | .ok s => Parser.conclude s
  | .error e => .error e

/-- The expression that a text makes. -/
def parseExpr (t : Text) : Except ParseError Expr := parseTokens (tokenize t)

end Worksheet
