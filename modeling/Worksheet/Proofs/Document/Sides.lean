import Worksheet.Proofs.Document.Completed
import Worksheet.Proofs.Expr.Literal
import Worksheet.Proofs.Number.Reading

/-! The two sides of a completed equation. What stands before the equals sign is read as before, and the value behind it
    is read as the number that it denotes, unless its thousands are grouped: a comma has no place in an expression. -/

namespace Worksheet
open Text Lexer Classify

/-! ### The text of a completed equation -/

namespace Text

theorem trimLeft_append_cons {t s : Text} {c : Char} (hc : Byte.isBlank c = false) :
    trimLeft (t ++ c :: s) = trimLeft t ++ c :: s := by
  induction t with
  | nil => simp [trimLeft, hc]
  | cons d t ih =>
    unfold trimLeft at ih ⊢
    cases hd : Byte.isBlank d with
    | true => simpa [hd] using ih
    | false => simp [hd]

theorem trimRight_append_cons {t s : Text} {c : Char} (hc : Byte.isBlank c = false) (hs : isBlank s = true) :
    trimRight (t ++ c :: s) = t ++ [c] := by
  have hrun : ∀ e ∈ s.reverse, Byte.isBlank e = true := fun e he => List.all_eq_true.mp hs e (List.mem_reverse.mp he)
  rw [trimRight, List.reverse_append, List.reverse_cons, List.append_assoc, List.dropWhile_append_of_pos hrun,
    List.singleton_append, List.dropWhile_cons_of_neg (by simp [hc])]
  simp

theorem trimRight_of_isBlank {s : Text} (hs : isBlank s = true) : trimRight s = [] := by
  have hrun : ∀ e ∈ s.reverse, Byte.isBlank e = true := fun e he => List.all_eq_true.mp hs e (List.mem_reverse.mp he)
  rw [trimRight, List.dropWhile_eq_nil_iff.mpr hrun, List.reverse_nil]

end Text

namespace Equation

/-- With a value behind its equals sign the text of an equation begins as before. -/
theorem exists_text_fill {y s v w : Text} (hy : '"' ∉ y) (hs : isBlank s = true) (hv : OutputText.Word v)
    (hback : '\\' ∉ v) (hw : isBlank w = true) : ∃ x, Inline.toParens (trim (y ++ '=' :: s)) = x ++ ['='] ∧
      Inline.toParens (trim (y ++ '=' :: (' ' :: v ++ w))) = x ++ '=' :: ' ' :: v := by
  obtain ⟨x, -, hx⟩ := Inline.respaced_toParens (t := trimLeft y) fun hmem => hy ((List.dropWhile_suffix _).subset hmem)
  obtain ⟨v', c, rfl⟩ : ∃ v' c, v = v' ++ [c] := by
    rcases List.eq_nil_or_concat v with rfl | ⟨v', c, rfl⟩
    · exact absurd rfl hv.ne_nil
    · exact ⟨v', c, List.concat_eq_append⟩
  have hc : Byte.isBlank c = false := hv.isBlank_of_mem (by simp)
  have hfilled : y ++ '=' :: (' ' :: (v' ++ [c]) ++ w) = (y ++ '=' :: ' ' :: v') ++ c :: w := by simp
  refine ⟨x, ?_, ?_⟩
  · rw [trim, trimLeft_append_cons rfl, trimRight_append_cons rfl hs]
    exact hx ['='] (by simp)
  · rw [trim, trimLeft_append_cons rfl]
    have hsplit : trimLeft y ++ '=' :: (' ' :: (v' ++ [c]) ++ w) = (trimLeft y ++ '=' :: ' ' :: v') ++ c :: w := by simp
    rw [hsplit, trimRight_append_cons hc hw]
    simpa using hx ('=' :: ' ' :: (v' ++ [c])) (by simpa using hback)

/-! ### The left side -/

/-- The first token says whether the sides are told apart there, or at which depth behind it. -/
theorem exists_splitSides_cons (depth : Int) (t : Token) : ∃ depth', ∀ ts, splitSides depth (t :: ts) =
    if depth' = 0 ∧ t.isOperator ['='] then some ([], ts)
    else (splitSides depth' ts).map fun p => (t :: p.1, p.2) :=
  ⟨_, fun _ => rfl⟩

/-- The sides are told apart by what stands before the equals sign. -/
theorem splitSides_append {depth : Int} {ls rs : List Token} {tok : Token}
    (h : splitSides depth (ls ++ tok :: rs) = some (ls, rs)) (rs' : List Token) :
    splitSides depth (ls ++ tok :: rs') = some (ls, rs') := by
  induction ls generalizing depth with
  | nil =>
    obtain ⟨depth', hcons⟩ := exists_splitSides_cons depth tok
    rw [List.nil_append, hcons] at h ⊢
    split at h
    · rename_i hequals
      rw [if_pos hequals]
    · obtain ⟨p, -, heq⟩ := Option.map_eq_some_iff.mp h
      cases (Prod.mk.inj heq).1
  | cons t ls ih =>
    obtain ⟨depth', hcons⟩ := exists_splitSides_cons depth t
    rw [List.cons_append, hcons] at h ⊢
    split at h
    · cases (Prod.mk.inj (Option.some.inj h)).1
    · rename_i hequals
      obtain ⟨⟨l, r⟩, hrest, heq⟩ := Option.map_eq_some_iff.mp h
      obtain ⟨hl, rfl⟩ := Prod.mk.inj heq
      obtain rfl := (List.cons.inj hl).2
      rw [if_neg hequals, ih hrest]
      rfl

/-- An incomplete equation with a text behind its equals sign has the left side that it had, and on the right side what
    the parser makes of the text. -/
theorem parseSides_append {x v : Text} {left : Expr} (h : parseSides (x ++ ['=']) = .ok ⟨left, none⟩)
    (hbare : Bare (x ++ ['='])) (hline : '\n' ∉ x) (hv : Bare v) (hends : Ends v) (hnone : '\n' ∉ v)
    (hblank : isBlank v = false) : ∃ p, parseSides (x ++ '=' :: v) =
      (parseTokens (lexFrom 0 ⟨true, false⟩ p v)).map (⟨left, some ·⟩) := by
  have hlast := isLastEquals_of_parseSides h hbare (by simpa using hline)
  -- Nothing stands behind the equals sign.
  have hequals : equals 0 (x ++ ['=']) = [[]] := by
    obtain ⟨s, hs, hs'⟩ := List.map_eq_singleton_iff.mp hlast
    obtain ⟨x', hx'⟩ := eq_append_of_mem_equals (hs ▸ List.mem_singleton_self s)
    rcases List.eq_nil_or_concat s with rfl | ⟨s', c, rfl⟩
    · exact hs
    · have hend : x ++ ['='] = (x' ++ '=' :: s') ++ [c] := by simpa using hx'
      have hc : '=' = c := List.singleton_inj.mp (List.append_inj_right' hend rfl)
      have hc' := List.all_eq_true.mp hs' c (by simp)
      rw [← hc] at hc'
      cases hc'
  unfold parseSides at h
  split at h
  · cases h
  · rename_i ls rs hsplit
    obtain ⟨tok, htokens, htok⟩ := splitSides_eq_some hsplit
    cases hleft : parseTokens ls with
    | error e =>
      rw [hleft] at h
      cases h
    | ok l =>
      rw [hleft] at h
      obtain rfl : l = left := by
        cases hsilent : rs.all (·.kind.isSilent) with
        | true =>
          simp only [hsilent] at h
          exact congrArg Sides.left (Except.ok.inj h)
        | false =>
          simp only [hsilent] at h
          cases hright : parseTokens rs <;> rw [hright] at h <;> cases h
      have hfinish : ∀ t ∈ ls, t.kind.isFinish = false := by
        obtain ⟨body, last, heq, -, -, -, hbody⟩ := (tokenize_tiles (x ++ ['='])).finish
        have hdrop : body = ls ++ (tok :: rs).dropLast := by
          rw [← List.dropLast_append_of_ne_nil (List.cons_ne_nil tok rs), ← htokens, heq, List.dropLast_concat]
        exact fun t ht => (hbody t (hdrop ▸ List.mem_append_left _ ht)).1
      obtain ⟨s, before', q, hs, hend, -⟩ := equals_lexFrom htokens (isOperator_of_parseTokens hleft hfinish) htok
      obtain ⟨rfl, -⟩ := List.cons.inj (hequals.symm.trans hs)
      have hoffset : tok.offset = (0 : Nat) + x.length := by
        simp only [Token.isOperator, Bool.and_eq_true, beq_iff_eq] at htok
        simp only [Token.endOffset, Token.length, htok.2, List.length_append, List.length_cons, List.length_nil] at hend
        omega
      obtain ⟨-, hfilled⟩ := lexFrom_equals htokens hoffset ends_nil hends
      refine ⟨Position.advance {} (x ++ ['=']), ?_⟩
      generalize Position.advance {} (x ++ ['=']) = p at hfilled
      have hloud : (lexFrom 0 ⟨true, false⟩ p v).all (·.kind.isSilent) = false :=
        Bool.eq_false_iff.mpr fun hsilent => by
          rw [isBlank_of_isSilent hv hnone hsilent] at hblank
          cases hblank
      rw [htokens] at hsplit
      have hsplit' := splitSides_append hsplit (lexFrom 0 ⟨true, false⟩ p v)
      unfold parseSides
      rw [show tokenize (x ++ '=' :: v) = _ from hfilled, hsplit']
      dsimp only
      rw [hleft, hloud]
      cases parseTokens (lexFrom 0 ⟨true, false⟩ p v) <;> rfl

/-- A completed line has the left side that the incomplete equation had, and on the right side what the parser makes of
    the value. -/
theorem parseSides_fill {line line' v : Text} {left : Expr} (hline : '\n' ∉ line)
    (h : parseSides (Inline.toParens (trim (blankComments line))) = .ok ⟨left, none⟩) (hv : OutputText.Word v)
    (hback : '\\' ∉ v) (hfill : SolveState.fillAfterEquals line v = some line') :
    ∃ p, parseSides (Inline.toParens (trim (blankComments line'))) =
      (parseTokens (lexFrom 0 ⟨true, false⟩ p (' ' :: v))).map (⟨left, some ·⟩) := by
  obtain ⟨hbare, htrimmed, hparens, hnone⟩ := respaced_text hline
  obtain ⟨y, s, w, line₁, hclean, hs, -, hfill₁, hclean', hw⟩ := Incomplete.fill ⟨left, h⟩ hline hv
  obtain rfl := Option.some.inj (hfill.symm.trans hfill₁)
  have hquote : '"' ∉ y := fun hmem => hbare.1 (by rw [hclean]; exact List.mem_append_left _ hmem)
  obtain ⟨x, hx, hx'⟩ := exists_text_fill hquote hs hv hback hw
  have htext := hparens.bare htrimmed
  rw [hclean, hx] at h htext hnone
  have hword : ∀ c ∈ v, c ≠ '\n' := by
    rintro c hc rfl
    cases hv.isWordPart _ hc
  rw [hclean', hx']
  refine parseSides_append h htext (fun hmem => hnone (List.mem_append_left _ hmem)) (bare_of_isWordPart hv)
    (ends_cons.mpr rfl) ?_ ?_
  · simpa using fun hmem => hword _ hmem rfl
  · refine Bool.eq_false_iff.mpr fun hblank => ?_
    obtain ⟨c, v', rfl⟩ := List.exists_cons_of_ne_nil hv.ne_nil
    have hc := List.all_eq_true.mp hblank c (by simp)
    rw [hv.isBlank_of_mem List.mem_cons_self] at hc
    cases hc

end Equation

/-! ### The right side -/

section RightSide
open Token Grammar

/-- Tokens of an expression at the end of a text. -/
theorem Grammar.Derives.parseTokens_concat {ts : List Token} {last : Token} {e : Expr} (h : Derives 1 e ts)
    (hlast : last.kind = .finish) : parseTokens (ts ++ [last]) = .ok e := by
  have hdress : Dresses (ts ++ []) (ts ++ []) := h.dressesItself [] [] .nil (by simp)
  rw [List.append_nil] at hdress
  rw [parseTokens_append_finish hdress.not_isFinish (by simpa using hlast)]
  exact parseTokens_of_dresses h hdress

variable {n : Numeral} {before : Before} {p : Position} {t : Text}

/-- A decimal numeral by itself is one token. -/
theorem Lexer.lexFrom_numeral (h : Decimal.isNumeral t = true) (before : Before) (p : Position) :
    ∃ v base style tok last, lexFrom 0 before p t = [tok, last] ∧ tok.kind = .number v base style ∧ last.kind = .finish := by
  obtain ⟨c, t, rfl⟩ := List.exists_cons_of_ne_nil (l := t) fun hnil => by
    rw [hnil] at h
    cases h
  have hblank : Byte.isBlank c = false := Parser.isBlank_of rfl (isPart_of_mem_numeral h List.mem_cons_self)
  have hnone : Spaces [] := nofun
  have hscan : scan before c t = _ :=
    scan_numeral h hnone (show c :: t ++ (Literal.percentText false ++ []) = c :: t by simp [Literal.percentText])
  have hlength : (c :: t ++ Literal.percentText false).length - 1 = t.length := by simp [Literal.percentText]
  have hskip := lexFrom_skip {} (p.after c) t []
  rw [List.append_nil, lexFrom_nil] at hskip
  have hlex : lexFrom 0 before p (c :: t) = _ := lexFrom_token hblank
  rw [hscan, hlength, show Before.ofKind (.number _ _ _) = {} from rfl, hskip] at hlex
  exact ⟨_, _, _, _, _, hlex, rfl, rfl⟩

/-- A finite numeral without `$`, `%` and commas is a number of the expression language, or the negative of one. -/
theorem Numeral.Proper.exists_parse (hn : n.Proper) (hfinite : n.isFinite = true) (hdollar : n.dollar = false)
    (hpercent : n.percent = false) (hcomma : ',' ∉ n.render) (before : Before) (p : Position) :
    ∃ e, parseTokens (lexFrom 0 before p n.render) = .ok e := by
  have hrender : n.render = n.signText ++ n.bareText := by
    have hplain : n.wholeText ++ n.fractionText ++ n.exponentText = n.bareText := by
      rw [← hn.filter_comma]
      refine (List.filter_eq_self.mpr fun c hc => bne_iff_ne.mpr ?_).symm
      rintro rfl
      refine hcomma ?_
      rw [render_eq, body]
      simp only [List.mem_append] at hc ⊢
      tauto
    rw [← hplain, render_eq, body, dollarText, percentText, hdollar, hpercent]
    simp
  obtain ⟨hnumeral, -⟩ := isNumeral_bareText hn hfinite
  rw [hrender, signText]
  cases n.negative with
  | false =>
    obtain ⟨v, base, style, tok, last, hlex, htok, hlast⟩ := lexFrom_numeral hnumeral before p
    refine ⟨.number v base, ?_⟩
    rw [if_neg Bool.false_ne_true, List.nil_append, hlex]
    exact (Derives.weaken (by decide) (.number htok)).parseTokens_concat hlast
  | true =>
    have hhead : (n.bareText).head? ≠ some '>' := by
      intro hhead
      cases isPart_of_mem_numeral hnumeral (List.mem_of_mem_head? hhead)
    have hscan : scan before '-' n.bareText = ⟨.operator, 0⟩ := by
      show scanOperator ('-' :: n.bareText) = _
      unfold scanOperator
      simp [Marker.ofText?_cons, hhead, doubleOperators, singleOperators]
    obtain ⟨v, base, style, tok, last, hlex, htok, hlast⟩ := lexFrom_numeral hnumeral (.ofKind .operator) (p.after '-')
    refine ⟨.unary .negate (.number v base), ?_⟩
    rw [if_pos rfl, List.singleton_append, lexFrom_token rfl, hscan, hlex]
    have hnumber : Derives PrefixOp.level (.number v base) [tok] := .weaken (by decide) (.number htok)
    exact (Derives.weaken (by decide) (.unary rfl rfl hnumber)).parseTokens_concat hlast

/-- Of the numerals without `$` those with grouped thousands make no expression. -/
theorem Numeral.Proper.comma_not_mem (hn : n.Proper) (hfinite : n.isFinite = true) (hdollar : n.dollar = false) {e : Expr}
    (h : Parser.Makes {} before n.render e) : ',' ∉ n.render := by
  intro hcomma
  have hbody : Literal.body? false ((n.wholeText ++ n.fractionText ++ n.exponentText).filter (· != ',')) =
      some (Decimal.value n.bareText) := by
    rw [hn.filter_comma]
    exact if_pos (isNumeral_bareText hn hfinite).1
  have hrender : n.render = n.signText ++ (n.wholeText ++ n.fractionText ++ n.exponentText ++ n.percentText) := by
    simp [render_eq, body, dollarText, hdollar]
  have hmem : ',' ∈ n.wholeText ++ n.fractionText ++ n.exponentText := by
    rw [hrender, signText, percentText] at hcomma
    rcases List.mem_append.mp hcomma with h | h
    · split at h <;> simp at h
    · refine (List.mem_append.mp h).resolve_right fun h => ?_
      split at h <;> simp at h
  rw [hrender, signText] at h
  cases hnegative : n.negative with
  | false =>
    rw [hnegative] at h
    exact Parser.not_makes_body_comma Parser.loose_nil hbody hmem h
  | true =>
    rw [hnegative] at h
    obtain ⟨p, q, hbehind⟩ := Parser.Makes.minus rfl rfl h
    have hloose : Parser.Loose [.prefixOp .negate p] := List.forall_mem_singleton.mpr (.inl ⟨_, _, rfl⟩)
    exact Parser.not_makes_body_comma hloose hbody hmem hbehind

/-- A numeral without `$` and `%` behind an equals sign is read there as the number that it denotes, exactly if it denotes
    one and its thousands are not grouped. -/
theorem Numeral.Proper.parse_iff (hn : n.Proper) (hdollar : n.dollar = false) (hpercent : n.percent = false) (p : Position) :
    (∃ e w, parseTokens (lexFrom 0 ⟨true, false⟩ p (' ' :: n.render)) = .ok e ∧ Literal.read? n.render = some w ∧
      ∀ c, (e.eval c).result = .ok w) ↔ ',' ∉ n.render ∧ (Literal.read? n.render).isSome = true := by
  rw [lexFrom_blank rfl]
  constructor
  · rintro ⟨e, w, hparse, hread, -⟩
    have hfinite : n.isFinite = true := by
      cases hfinite : n.isFinite with
      | true => rfl
      | false =>
        rw [hn.read?_render_eq_none hfinite] at hread
        cases hread
    exact ⟨hn.comma_not_mem hfinite hdollar ⟨_, hparse⟩, by rw [hread]; rfl⟩
  · rintro ⟨hcomma, hsome⟩
    obtain ⟨w, hread⟩ := Option.isSome_iff_exists.mp hsome
    have hfinite : n.isFinite = true := by
      cases hfinite : n.isFinite with
      | true => rfl
      | false =>
        rw [hn.read?_render_eq_none hfinite] at hread
        cases hread
    obtain ⟨e, he⟩ := hn.exists_parse hfinite hdollar hpercent hcomma ⟨true, false⟩ (p.after ' ')
    exact ⟨e, w, he, hread, Literal.result_eval_of_makes rfl hread ⟨_, he⟩⟩

end RightSide
end Worksheet
