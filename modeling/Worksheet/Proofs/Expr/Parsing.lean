import Worksheet.Proofs.Expr.ParseComplete

/-! The parser against the grammar. Every dressed expression is read as itself. The other way round there is one
    gap: the operands of a call in progress and those in front of it are on one stack, and an operator right
    before a closing parenthesis takes one that stands outside. -/

namespace Worksheet
namespace Grammar
open Token Worksheet.Parser

/-- What is accepted is derivable, the expression is the one of the derivation, and everything else is an
    error. -/
structure SoundOn (ts : List Token) : Prop where
  derives : ∀ e, parseTokens ts = .ok e → Derives 1 e (seen ts)
  unique : ∀ e e', parseTokens ts = .ok e → Derives 1 e' (seen ts) → e' = e
  rejects : (¬∃ e, Derives 1 e (seen ts)) → ∃ err, parseTokens ts = .error err

theorem soundOn_of_derives {ts : List Token} (h : ∀ e, parseTokens ts = .ok e → Derives 1 e (seen ts)) :
    SoundOn ts where
  derives := h
  unique e e' he he' := he'.unique (h e he)
  rejects hnone := by
    cases hparse : parseTokens ts with
    | ok e => exact absurd ⟨e, h e hparse⟩ hnone
    | error err => exact ⟨err, rfl⟩

/-- The parser is sound on tokens exactly if it accepts them only without an operator before a closing
    parenthesis. -/
theorem soundOn_iff_operatorsClosed (ts : List Token) :
    SoundOn ts ↔ ((∃ e, parseTokens ts = .ok e) → OperatorsClosed (seen ts)) := by
  constructor
  · rintro hsound ⟨e, he⟩
    exact (hsound.derives e he).operatorsClosed
  · intro hclosed
    refine soundOn_of_derives fun e he => ?_
    exact derives_of_parseTokens (hclosed ⟨e, he⟩) he

/-- The minus inside of `f(-)` takes the `a` that stands in front of the call. -/
theorem not_soundOn_operator_in_call :
    parseTokens (tokenize ['a', '+', 'f', '(', '-', ')']) =
      .ok (.binary .add (.unary .negate (.var ['a'])) (.call ['f'] [])) ∧
    ¬SoundOn (tokenize ['a', '+', 'f', '(', '-', ')']) := by
  have hparse : parseTokens (tokenize ['a', '+', 'f', '(', '-', ')']) =
      .ok (.binary .add (.unary .negate (.var ['a'])) (.call ['f'] [])) := by rfl
  refine ⟨hparse, fun hsound => ?_⟩
  have hclosed := (hsound.derives _ hparse).operatorsClosed
  obtain ⟨-, hclosed⟩ := List.isChain_cons_cons.mp hclosed
  obtain ⟨-, hclosed⟩ := List.isChain_cons_cons.mp hclosed
  obtain ⟨-, hclosed⟩ := List.isChain_cons_cons.mp hclosed
  obtain ⟨-, hclosed⟩ := List.isChain_cons_cons.mp hclosed
  exact (List.isChain_cons_cons.mp hclosed).1 ⟨rfl, rfl⟩

/-! ### Completeness -/

/-- Every text of an expression with its parentheses where the levels ask for them, with further ones, and
    dressed in any way, is read as that expression. -/
theorem parse_rendering {e : Expr} {us ts rest : List Token} (he : Derives 1 e us) (hts : Dresses us ts)
    (hrest : ∀ t ∈ rest.head?, t.kind = .finish) : parseTokens (ts ++ rest) = .ok e := by
  rw [parseTokens_append_finish hts.not_isFinish hrest]
  exact parseTokens_of_dresses he hts

/-- A text with a suffix, a comment and parentheses that the levels do not ask for. -/
theorem parse_rendering_call :
    parseTokens (tokenize ['f', '(', 'a', '$', ';', '(', 'b', ')', '*', '*', '-', 'a', ')', '"', 'd', '"']) =
      .ok (.call ['f'] [.var ['a'], .binary .power (.var ['b']) (.unary .negate (.var ['a']))]) := by
  let f : Token := ⟨.name, ['f'], 1, 1, 0⟩
  let o : Token := ⟨.openParen, ['('], 1, 2, 1⟩
  let a : Token := ⟨.name, ['a'], 1, 3, 2⟩
  let money : Token := ⟨.suffix { style := .money }, ['$'], 1, 4, 3⟩
  let s : Token := ⟨.semicolon, [';'], 1, 5, 4⟩
  let o' : Token := ⟨.openParen, ['('], 1, 6, 5⟩
  let b : Token := ⟨.name, ['b'], 1, 7, 6⟩
  let c : Token := ⟨.closeParen, [')'], 1, 8, 7⟩
  let power : Token := ⟨.operator, ['*', '*'], 1, 9, 8⟩
  let minus : Token := ⟨.operator, ['-'], 1, 11, 10⟩
  let a' : Token := ⟨.name, ['a'], 1, 12, 11⟩
  let c' : Token := ⟨.closeParen, [')'], 1, 13, 12⟩
  let comment : Token := ⟨.comment, ['"', 'd', '"'], 1, 14, 13⟩
  let finish : Token := ⟨.finish, [], 1, 17, 16⟩
  have htokens : tokenize ['f', '(', 'a', '$', ';', '(', 'b', ')', '*', '*', '-', 'a', ')', '"', 'd', '"'] =
      [f, o, a, money, s, o', b, c, power, minus, a', c', comment] ++ [finish] := by rfl
  have hvar (t : Token) {n : Nat} (ht : t.kind = .name) (hn : n ≤ primary) : Derives n (.var t.lexeme) [t] :=
    .weaken hn (.var ht)
  have hfirst : Arguments [.var ['a']] [a] := .first (hvar a rfl (by decide))
  have hgroup : Derives primary (.var ['b']) [o', b, c] := @Derives.group _ [b] o' c rfl (hvar b rfl (by decide)) rfl
  have hb : Derives BinaryOp.power.leftLevel (.var ['b']) [o', b, c] := .weaken (by decide) hgroup
  have hminus : Derives BinaryOp.power.rightLevel (.unary .negate (.var ['a'])) [minus, a'] :=
    .weaken (m := PrefixOp.level) (by decide) (.unary rfl rfl (hvar a' rfl (by decide)))
  have hpower : Derives BinaryOp.power.level (.binary .power (.var ['b']) (.unary .negate (.var ['a'])))
      [o', b, c, power, minus, a'] := .binary hb rfl rfl hminus
  have hargs : Arguments [.var ['a'], .binary .power (.var ['b']) (.unary .negate (.var ['a']))]
      [a, s, o', b, c, power, minus, a'] := hfirst.more (.inl rfl) (.weaken (by decide) hpower)
  have he : Derives 1 (.call ['f'] [.var ['a'], .binary .power (.var ['b']) (.unary .negate (.var ['a']))])
      [f, o, a, s, o', b, c, power, minus, a', c'] := .weaken (by decide) (@Derives.call _ _ f o c' rfl rfl hargs rfl)
  rw [htokens]
  refine parse_rendering he (.call rfl rfl (.var [money] rfl (by simp [s]) (by simp [money, Kind.isSuffix]) ?_)) ?_
  · refine .plain rfl (.plain rfl (.var [] rfl (by simp [c]) (by simp) (.plain rfl (.plain rfl ?_))))
    exact .plain rfl (.var [] rfl (by simp [c']) (by simp) (.plain rfl (.silent (.inl rfl) .nil)))
  · rintro t ⟨⟩
    rfl

end Grammar
end Worksheet
