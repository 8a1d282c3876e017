import Worksheet.Line.OutputText
import Worksheet.Line.ValueLine
import Worksheet.Token.Lexer

/-! Finding the value line in a line of text. The marker that counts is chosen first; then the tokens
    before it are read backward, in lists with the token nearest to the marker at the head. A name, perhaps
    with suffixes and limits, makes a declaration; anything else is an expression, which goes back as far as
    operators connect its terms. -/

namespace Worksheet
namespace Classify
open Token

/-! ### The marker -/

/-- The markers outside square brackets with their indices. An open bracket hides what is behind it. -/
def candidates (depth index : Nat) : List Token → List (Nat × Marker)
  | [] => []
  | t :: ts =>
    let depth := match t.kind with
      | .openBracket => depth + 1
      | .closeBracket => depth - 1
      | _ => depth
    match t.kind.marker? with
    | some m => if depth = 0 then (index, m) :: candidates depth (index + 1) ts else candidates depth (index + 1) ts
    | none => candidates depth (index + 1) ts

/-- Of two markers the one that counts: the higher rank; among equals the left one of arrows and the right
    one of colons. -/
def preferred (x y : Nat × Marker) : Nat × Marker :=
  if x.2.rank < y.2.rank || (x.2.rank == y.2.rank && y.2.isColon) then y else x

/-- The marker that counts: the first `<-` if there is one. -/
def choose (cs : List (Nat × Marker)) : Option (Nat × Marker) :=
  match cs.find? (·.2 == .leftArrow) with
  | some c => some c
  | none => match cs with
    | [] => none
    | c :: cs => some (cs.foldl preferred c)

/-! ### Declarations -/

/-- A decoration with a second one: what the first leaves open the second settles. -/
def join (d e : Decoration) : Decoration :=
  ⟨if d.style = .plain then e.style else d.style, if d.base = 10 then e.base else d.base⟩

/-- Passes over suffixes, joining what they ask for. -/
def takeSuffixes (d : Decoration) : List Token → Decoration × List Token
  | t :: ts =>
    match t.kind with
    | .suffix e => takeSuffixes (join d e) ts
    | _ => (d, t :: ts)
  | [] => (d, [])

/-- From a closing bracket back to the opening one: the colon nearest to the closing one outside inner
    brackets, the opening bracket, and the tokens before it. -/
def findOpen (depth : Nat) (colon : Option Token) : List Token → Option (Option Token × Token × List Token)
  | [] => none
  | t :: ts =>
    match t.kind with
    | .closeBracket => findOpen (depth + 1) colon ts
    | .openBracket => if depth ≤ 1 then some (colon, t, ts) else findOpen (depth - 1) colon ts
    | .marker .colon _ => findOpen depth (if depth = 1 then colon.or (some t) else colon) ts
    | _ => findOpen depth colon ts

/-- The limits between an opening bracket, a colon and a closing bracket. -/
def limitsBetween (line : Text) (opening colon closing : Token) : LimitsText :=
  ⟨Text.trim (Text.slice line opening.endOffset colon.offset), Text.trim (Text.slice line colon.endOffset closing.offset)⟩

/-- What stands before a marker: the decoration with the suffixes, the limits, and the tokens before these. -/
structure Head where
  decoration : Decoration
  limits : Option LimitsText
  rest : List Token

/-- Reads suffixes, limits in brackets, and suffixes again. -/
def readHead (line : Text) (d : Decoration) (before : List Token) : Head :=
  let (d, rest) := takeSuffixes d before
  match rest with
  | [] => ⟨d, none, []⟩
  | closing :: _ =>
    match closing.kind, findOpen 0 none rest with
    | .closeBracket, some (colon, opening, rest) =>
      let (d, rest) := takeSuffixes d rest
      ⟨d, colon.map fun c => limitsBetween line opening c closing, rest⟩
    | _, _ => ⟨d, none, rest⟩

/-! ### Expressions -/

/-- An operand may end with this token. -/
def endsOperand (t : Token) : Bool :=
  match t.kind with
  | .name | .number _ _ _ | .closeParen | .closeBracket | .suffix _ => true
  | _ => false

/-- An operator that binds the terms beside it. The others separate an expression from a label. -/
def connects (t : Token) : Bool :=
  t.kind.isOperator && t.lexeme != ['?'] && t.lexeme != ['\\'] && t.lexeme != ['=']

def isOpenParen (t : Token) : Bool :=
  match t.kind with
  | .openParen => true
  | _ => false

/-- From a closing parenthesis back to the one it closes, which is the head of the result. -/
def matchOpen (depth : Nat) : List Token → Option (List Token)
  | [] => none
  | t :: ts =>
    match t.kind with
    | .closeParen => matchOpen (depth + 1) ts
    | .openParen => if depth = 1 then some (t :: ts) else matchOpen (depth - 1) ts
    | _ => matchOpen depth ts

/-- The list with the token before `t` at the head, if that is a name which `t` touches. -/
def withName (t : Token) (ts : List Token) : List Token :=
  match ts with
  | name :: rest => if name.kind.isName && name.touches t then name :: rest else t :: ts
  | [] => t :: ts

/-- From the last token of an operand back to its first: of a call, a group, or a name with a suffix. -/
def operandStart : List Token → List Token
  | [] => []
  | t :: ts =>
    match t.kind with
    | .suffix _ => withName t ts
    | .closeParen =>
      match matchOpen 0 (t :: ts) with
      | some (p :: ps) => withName p ps
      | _ => t :: ts
    | _ => t :: ts

/-- A sign may stand right behind this token. -/
def introducesSign (t : Token) : Bool :=
  match t.kind with
  | .marker m _ => m.isColon
  | .openParen => true
  | _ => false

/-- From the first token of an operand back to the first one of the expression; at most `fuel` steps, for
    which the number of tokens is enough. -/
def extend : Nat → List Token → List Token
  | 0, ts => ts
  | fuel + 1, ts =>
    match ts with
    | t :: op :: rest =>
      if !connects op then t :: op :: rest
      else if op.lexeme == ['!'] || op.lexeme == ['~'] then extend fuel (op :: rest)
      else if rest.head?.any endsOperand then extend fuel (operandStart rest)
      else if op.lexeme == ['-'] || op.lexeme == ['+'] then
        if rest.head?.any connects then extend fuel (op :: rest)
        else if rest.head?.any introducesSign then op :: rest
        else t :: op :: rest
      else t :: op :: rest
    | ts => ts

/-- The tokens from the start of the expression that ends right before the marker. -/
def expressionStart (before : List Token) : List Token := extend before.length (operandStart before)

/-- A name before the marker is the end of an expression, judging by the tokens before it. -/
def endsExpression (name : Token) (before : List Token) : Bool :=
  match before with
  | [] => false
  | p :: rest =>
    let closes := match p.kind with
      | .number _ _ _ | .closeParen => true
      | _ => false
    if closes && p.touches name then true
    else if isOpenParen p then true
    else if connects p then
      if p.lexeme == ['-'] then rest.head?.any fun t => endsOperand t || connects t || isOpenParen t else true
    else false

/-! ### Comments -/

/-- The text with `length` blanks from `offset` on. -/
def blankOut (t : Text) (offset length : Nat) : Text := t.take offset ++ Text.blanks length ++ t.drop (offset + length)

def comments (ts : List Token) : List Token := ts.filter (·.kind.isComment)

/-- The text with blanks in place of comments. -/
def blankComments (t : Text) : Text :=
  (comments (tokenize t)).foldl (fun t c => blankOut t c.offset c.length) t

/-- Texts with a blank between each two. -/
def joinBlank (ts : List Text) : Text := List.intercalate [' '] ts

/-- The body of the last quoted comment that stands behind `offset`. -/
def lastQuoted (ts : List Token) (offset : Nat) : Option Text :=
  ((comments ts).filter fun c => c.lexeme.head? == some '"' && decide (offset ≤ c.offset)).getLast?.map Token.text

/-! ### The line -/

/-- What the line gives a value for, where the subject begins, and how the value is shown. -/
structure Finding where
  subject : Subject
  labelEnd : Nat
  decoration : Decoration

/-- The expression before the marker. -/
def expressionBefore (line : Text) (d : Decoration) (before : List Token) : Option Finding :=
  match before, expressionStart before with
  | last :: _, first :: _ =>
    some ⟨.expression (Text.trim (Text.slice line first.offset last.endOffset)), first.offset, d⟩
  | _, _ => none

/-- The subject before a marker. An input marker takes no expression. -/
def subjectBefore (line : Text) (m : Marker) (d : Decoration) (before : List Token) : Option Finding :=
  let head := readHead line d before
  match head.rest with
  | name :: rest =>
    if name.kind.isName then
      if m = .leftArrow || !endsExpression name rest then
        some ⟨.declaration name.lexeme head.limits, name.offset, head.decoration⟩
      else expressionBefore line d before
    else if m = .leftArrow then none else expressionBefore line d before
  | [] => if m = .leftArrow then none else expressionBefore line d before

/-- The value and the unit behind a marker. -/
def valueBehind (m : Marker) (payload : Text) : Text × Text :=
  if m.isOutput then OutputText.split payload else (payload, [])

/-- The value line that the tokens of a line make. -/
def ofTokens (line : Text) (ts : List Token) : Option ValueLine := do
  let sig := significant ts
  let (index, m) ← choose (candidates 0 0 sig)
  let t ← sig[index]?
  let opensBlock := (sig[index + 1]?).any fun t => match t.kind with | .openBrace => true | _ => false
  if index = 0 || opensBlock then none
  else
    let found ← subjectBefore line m ⟨t.kind.style, t.kind.base⟩ (sig.take index).reverse
    let (value, unit) := valueBehind m (Text.trim ((blankComments line).drop t.endOffset))
    return {
      subject := found.subject
      marker := m
      decoration := found.decoration
      markerBegin := t.offset
      markerEnd := t.endOffset
      labelEnd := found.labelEnd
      valueText := value
      unit
      trailing := joinBlank (((comments ts).filter fun c => t.endOffset ≤ c.offset).map Token.lexeme)
      quoted := lastQuoted ts ((sig.getLast?.map Token.endOffset).getD 0) }

end Classify

/-- The value line that a line of text is; none for other text, for equations, and for the opening of a
    block. -/
def classifyLine (line : Text) : Option ValueLine := Classify.ofTokens line (tokenize line)

end Worksheet
