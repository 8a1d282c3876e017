import Mathlib.Data.List.Chain
import Worksheet.Expr.Parser

/-! The grammar of expressions. `Derives n e ts` says that the tokens `ts` make the expression `e` and that
    no operator of a level below `n` stands outside its parentheses. The grammar knows nothing of stacks: an
    operator asks its left operand for `leftLevel` and its right one for `rightLevel`. `bare` takes out of
    tokens what the grammar does not see, and `Dresses` is the other way round: how comments, line ends and
    suffixes may be put in between. -/

namespace Worksheet

namespace BinaryOp

/-- The least level of a left operand; a chain that is grouped from the left goes on there. -/
def leftLevel (op : BinaryOp) : Nat := if op.rightAssociative then op.level + 1 else op.level

/-- The least level of a right operand; a chain that is grouped from the right goes on there. -/
def rightLevel (op : BinaryOp) : Nat := if op.rightAssociative then op.level else op.level + 1

theorem level_le_leftLevel (op : BinaryOp) : op.level ≤ op.leftLevel := by
  unfold leftLevel
  split <;> omega

theorem level_le_rightLevel (op : BinaryOp) : op.level ≤ op.rightLevel := by
  unfold rightLevel
  split <;> omega

theorem level_lt (op : BinaryOp) : op.level < PrefixOp.level := by
  cases op <;> exact Nat.le_of_ble_eq_true rfl

theorem leftLevel_le (op : BinaryOp) : op.leftLevel ≤ PrefixOp.level := by
  cases op <;> exact Nat.le_of_ble_eq_true rfl

theorem rightLevel_le (op : BinaryOp) : op.rightLevel ≤ power.level := by
  cases op <;> exact Nat.le_of_ble_eq_true rfl

theorem eq_power_of_rightAssociative {op : BinaryOp} (h : op.rightAssociative = true) : op = power := by
  cases op <;> first | rfl | cases h

/-- An operator leaves room for `next` in its right operand exactly when it does not make way for it. -/
theorem rightLevel_le_iff {op next : BinaryOp} : op.rightLevel ≤ next.level ↔ op.level < next.leftLevel := by
  cases ho : op.rightAssociative <;> cases hn : next.rightAssociative
  · simp only [rightLevel, leftLevel, ho, hn, Bool.false_eq_true, if_false]
    omega
  · obtain rfl := eq_power_of_rightAssociative hn
    exact ⟨fun _ => op.level_lt, fun _ => op.rightLevel_le⟩
  · obtain rfl := eq_power_of_rightAssociative ho
    cases next <;> simp [rightLevel, leftLevel, level, rightAssociative] at hn ⊢
  · obtain rfl := eq_power_of_rightAssociative ho
    obtain rfl := eq_power_of_rightAssociative hn
    decide

theorem level_pos_of_ofSymbol? {t : Text} {op : BinaryOp} (h : ofSymbol? t = some op) : 0 < op.level :=
  level_pos_of_mem_known op (mem_known_of_ofSymbol? h)

end BinaryOp

namespace Grammar
open Token

/-- The level of an operand that is no operator outside parentheses. -/
def primary : Nat := 11

/-- What stands between two arguments. -/
def IsSeparator (t : Token) : Prop := t.kind = .semicolon ∨ t.kind = .comma

mutual
/-- The tokens `ts` make the expression `e`, and outside parentheses all operators are of level `n` or more. -/
inductive Derives : Nat → Expr → List Token → Prop
  | number {t : Token} {v : Float} {base : Nat} {style : Style} (ht : t.kind = .number v base style) :
    Derives primary (.number v base) [t]
  | var {t : Token} (ht : t.kind = .name) : Derives primary (.var t.lexeme) [t]
  | group {e : Expr} {ts : List Token} {o c : Token} (ho : o.kind = .openParen) (h : Derives 1 e ts)
    (hc : c.kind = .closeParen) : Derives primary e (o :: ts ++ [c])
  | noArguments {f o c : Token} (hf : f.kind = .name) (ho : o.kind = .openParen) (hc : c.kind = .closeParen) :
    Derives primary (.call f.lexeme []) [f, o, c]
  | call {es : List Expr} {ts : List Token} {f o c : Token} (hf : f.kind = .name) (ho : o.kind = .openParen)
    (h : Arguments es ts) (hc : c.kind = .closeParen) : Derives primary (.call f.lexeme es) (f :: o :: ts ++ [c])
  | unary {op : PrefixOp} {e : Expr} {ts : List Token} {t : Token} (ht : t.kind = .operator)
    (hop : PrefixOp.ofSymbol? t.lexeme = some op) (h : Derives PrefixOp.level e ts) :
    Derives PrefixOp.level (.unary op e) (t :: ts)
  | binary {op : BinaryOp} {l r : Expr} {ls rs : List Token} {t : Token} (hl : Derives op.leftLevel l ls)
    (ht : t.kind = .operator) (hop : BinaryOp.ofSymbol? t.lexeme = some op) (hr : Derives op.rightLevel r rs) :
    Derives op.level (.binary op l r) (ls ++ t :: rs)
  | weaken {n m : Nat} {e : Expr} {ts : List Token} (hle : n ≤ m) (h : Derives m e ts) : Derives n e ts

/-- One or more arguments with separators between them. -/
inductive Arguments : List Expr → List Token → Prop
  | first {e : Expr} {ts : List Token} (h : Derives 1 e ts) : Arguments [e] ts
  | more {es : List Expr} {e : Expr} {ts us : List Token} {s : Token} (hes : Arguments es ts) (hs : IsSeparator s)
    (h : Derives 1 e us) : Arguments (es ++ [e]) (ts ++ s :: us)
end

/-! ### What the grammar sees -/

/-- What a token is for the reading of the next one. -/
def follow (last : Parser.Last) (t : Token) : Parser.Last :=
  match t.kind, last with
  | .name, _ => .name
  | .suffix _, .name | .suffix _, .suffix => .suffix
  | _, _ => .other

/-- Comments, line ends, and suffixes right behind a name. -/
def isDress (last : Parser.Last) (t : Token) : Bool :=
  match t.kind, last with
  | .comment, _ | .newline, _ => true
  | .suffix _, .name | .suffix _, .suffix => true
  | _, _ => false

theorem follow_of_not_isDress {last : Parser.Last} {t : Token} (h : isDress last t = false) :
    follow last t = follow .other t := by
  unfold isDress at h
  unfold follow
  cases hk : t.kind <;> cases last <;> rw [hk] at h <;> first | rfl | cases h

theorem follow_ne_name_of_isDress {last : Parser.Last} {t : Token} (h : isDress last t = true) :
    follow last t ≠ .name := by
  unfold isDress at h
  unfold follow
  cases hk : t.kind <;> cases last <;> rw [hk] at h <;>
    first | (cases h; done) | exact fun hname => nomatch hname

theorem follow_other_of_isDress {t : Token} (h : isDress .other t = true) : follow .other t = .other := by
  unfold isDress at h
  unfold follow
  cases hk : t.kind <;> rw [hk] at h
  all_goals first | rfl | cases h

/-- The tokens without comments, line ends and suffixes of names; `last` is what stands before them. -/
def bare (last : Parser.Last) : List Token → List Token
  | [] => []
  | t :: ts => if isDress last t then bare (follow last t) ts else t :: bare (follow last t) ts

/-- What the grammar sees of tokens: those before the end of the text, bare. -/
def seen (ts : List Token) : List Token := bare .other (ts.takeWhile (!·.kind.isFinish))

/-- No operator stands right before a closing parenthesis. -/
def OperatorsClosed (ts : List Token) : Prop :=
  ts.IsChain fun t u => ¬(t.kind = .operator ∧ u.kind = .closeParen)

/-- Numbers, operators, parentheses and separators. -/
def isPlain (t : Token) : Bool :=
  match t.kind with
  | .number _ _ _ | .operator | .openParen | .closeParen | .semicolon | .comma => true
  | _ => false

theorem isDress_of_isPlain {t : Token} (h : isPlain t = true) (last : Parser.Last) : isDress last t = false := by
  unfold isPlain at h
  unfold isDress
  cases hk : t.kind <;> rw [hk] at h <;> first | rfl | cases h

theorem follow_of_isPlain {t : Token} (h : isPlain t = true) (last : Parser.Last) : follow last t = .other := by
  unfold isPlain at h
  unfold follow
  cases hk : t.kind <;> rw [hk] at h <;> first | rfl | cases h

/-- `ts` are the bare tokens `us` with comments and line ends anywhere but right behind a name, and with
    suffixes right behind variables. -/
inductive Dresses : List Token → List Token → Prop
  | nil : Dresses [] []
  | silent {us ts : List Token} {c : Token} (hc : c.kind = .comment ∨ c.kind = .newline) (h : Dresses us ts) :
    Dresses us (c :: ts)
  | var {us ts : List Token} {t : Token} (ss : List Token) (ht : t.kind = .name) (hus : ∀ u ∈ us.head?, u.kind ≠ .openParen)
    (hss : ∀ s ∈ ss, s.kind.isSuffix = true) (h : Dresses us ts) : Dresses (t :: us) (t :: ss ++ ts)
  | call {us ts : List Token} {f o : Token} (hf : f.kind = .name) (ho : o.kind = .openParen) (h : Dresses us ts) :
    Dresses (f :: o :: us) (f :: o :: ts)
  | plain {us ts : List Token} {t : Token} (ht : isPlain t = true) (h : Dresses us ts) : Dresses (t :: us) (t :: ts)

end Grammar
end Worksheet
