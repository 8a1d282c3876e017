import Worksheet.Expr.Eval
import Worksheet.Proofs.Expr.Makes
import Worksheet.Proofs.Number.Arithmetic

/-! Literals mean the same wherever they are read: a text that is a literal and an expression as well has the same value
    as the one and as the other. Where a literal is no single token, what is left of it stops the parser. -/

namespace Worksheet
namespace Parser
open Token Lexer Literal

/-! ### Literals without a sign -/

section Literals
variable {s : State} {before : Before} {c : Char} {t u w : Text} {e : Expr} {v : Float} {percent : Bool}

/-- The parser makes `e` of a number where `s` waits for an operand. -/
def Yields (s : State) (v : Float) (e : Expr) : Prop :=
  ∃ base p, conclude (pushOperand { s with reached := p } (.number v base) .other) = .ok e

/-- A number with only white space behind it. -/
theorem Makes.yields {base : Nat} {style : Style} {n : Nat} (hc : Byte.isBlank c = false)
    (hscan : scan before c t = ⟨.number v base style, n⟩) (hrest : t.drop n = w) (hw : Text.Spaces w)
    (h : Makes s before (c :: t) e) : Yields s v e := by
  obtain ⟨-, p, hmakes⟩ := h.number hc hscan
  rw [hrest, ← List.append_nil w] at hmakes
  refine ⟨base, p, ?_⟩
  rcases hmakes.spaces hw rfl rfl with hend | hend <;> exact hend.conclude

/-- A literal without its sign. -/
def amount? (t : Text) : Option Float :=
  let money := t.head? = some '$'
  let t := if money then t.drop 1 else t
  let (t, percent) := splitPercent t
  (body? money (t.filter (· != ','))).map fun v => if percent then v / 100.0 else v

/-- The sign of a literal is taken before its percentage and the sign of an expression behind it, with the same result. -/
theorem signed?_plain (t : Text) : signed? .plain t =
    if t.head? = some '-' then (amount? (t.drop 1)).map (fun v => -v) else amount? t := by
  by_cases hsign : t.head? = some '-'
  · rw [if_pos hsign]
    unfold signed? amount?
    simp only [hsign, if_true, Option.map_map]
    congr 1
    funext v
    cases (splitPercent (if (t.drop 1).head? = some '$' then (t.drop 1).drop 1 else t.drop 1)).2 with
    | false => rfl
    | true => exact Binary.neg_left_div v 100.0
  · rw [if_neg hsign]
    unfold signed? amount?
    simp [hsign]

/-- A token that leaves the `%` of its literal to the parser leaves it without an operand. -/
theorem Makes.yields_percent {base : Nat} {style : Style} {n : Nat} (hc : Byte.isBlank c = false)
    (hscan : scan before c t = ⟨.number v base style, n⟩) (hrest : t.drop n = percentText percent ++ w)
    (hw : Text.Spaces w) (h : Makes s before (c :: t) e) : Yields s (if percent then v / 100.0 else v) e := by
  cases percent with
  | false => exact h.yields hc hscan hrest hw
  | true =>
    obtain ⟨-, p, hmakes⟩ := h.number hc hscan
    rw [hrest] at hmakes
    exact absurd hmakes (not_makes_percent rfl hw)

/-- A literal without sign and `$` that has a comma makes no expression. -/
theorem not_makes_body_comma {d r : Text} (hloose : Loose s.pending) (hbody : body? false (d.filter (· != ',')) = some v)
    (hcomma : ',' ∈ d) : ¬Makes s before (d ++ r) e := by
  intro h
  obtain ⟨x, y, rfl, hx⟩ := List.eq_append_cons_of_mem hcomma
  rw [List.append_assoc, List.cons_append] at h
  refine not_makes_comma hloose (fun c hc => isPart_of_body? hbody (List.mem_filter.mpr ?_)) h
  exact ⟨List.mem_append_left _ hc, bne_iff_ne.mpr (ne_of_mem_of_not_mem hc hx)⟩

/-- A literal without sign and `$`. -/
theorem yields_of_body {d : Text} (hloose : Loose s.pending) (hbody : body? false (d.filter (· != ',')) = some v)
    (hw : Text.Spaces w) (h : Makes s before (d ++ (percentText percent ++ w)) e) :
    Yields s (if percent then v / 100.0 else v) e := by
  by_cases hcomma : ',' ∈ d
  · exact absurd h (not_makes_body_comma hloose hbody hcomma)
  · rw [filter_comma hcomma] at hbody
    cases d with
    | nil => cases hbody
    | cons c d =>
      have hblank : Byte.isBlank c = false := isBlank_of rfl (isPart_of_body? hbody List.mem_cons_self)
      have hrest : (d ++ (percentText percent ++ w)).drop ((c :: d).length - 1) = percentText percent ++ w := List.drop_left
      have htext : c :: d ++ (percentText percent ++ w) = c :: (d ++ (percentText percent ++ w)) := rfl
      unfold body? at hbody
      split at hbody
      · rename_i hnumeral
        obtain rfl := Option.some.inj hbody
        have hbehind : (d ++ (percentText percent ++ w)).drop ((c :: d ++ percentText percent).length - 1) = w := by
          rw [List.cons_append, List.length_cons, Nat.add_sub_cancel, ← List.append_assoc, List.drop_left]
        exact h.yields hblank (scan_numeral hnumeral hw htext) hbehind hw
      · rw [if_neg Bool.false_ne_true] at hbody
        cases hprefixed : prefixed? (c :: d) with
        | some v' =>
          rw [hprefixed] at hbody
          obtain rfl := Option.some.inj hbody
          obtain ⟨base, hscan⟩ := scan_prefixed before hprefixed (stops_percentText hw percent rfl) rfl
          exact h.yields_percent hblank hscan hrest hw
        | none =>
          rw [hprefixed] at hbody
          rcases scan_based before hbody hw htext with ⟨base, hscan⟩ | hbreaks
          · exact h.yields_percent hblank hscan hrest hw
          · exact absurd h (not_makes_of_breaks hblank hbreaks)

/-- A comma of an amount of money that stands behind its whole part makes no expression. -/
theorem not_makes_money_comma {a x y : Text} (hloose : Loose s.pending) (ha : whole true (a ++ (x ++ ',' :: y)) = a)
    (hx : ∀ c ∈ x, Decimal.isPart c = true) (hstart : startsNumber (a ++ (x ++ ',' :: y)) = true) :
    ¬Makes s before ('$' :: (a ++ (x ++ ',' :: y))) e := by
  intro h
  have hne : a ++ x ≠ [] := by
    intro hnil
    obtain ⟨rfl, rfl⟩ := List.append_eq_nil_iff.mp hnil
    cases hstart
  obtain ⟨k, hk, hpos, v, style, hdecimal⟩ := scanDecimal_comma ha hne fun hmem => nomatch hx '%' hmem
  have hscan : scan before '$' (a ++ (x ++ ',' :: y)) = ⟨.number v 10 style, a.length + k⟩ := by
    show scanDollar _ = _
    rw [scanDollar, if_pos hstart, hdecimal]
    exact congrArg (Found.mk _) (Nat.sub_add_cancel hpos)
  obtain ⟨-, p, hmakes⟩ := h.number rfl hscan
  rw [← List.drop_drop, List.drop_left, List.drop_append_of_le_length hk] at hmakes
  refine not_makes_comma ?_ (fun c hc => isPart_of_decimal (hx c (List.mem_of_mem_drop hc))) hmakes
  exact hloose

/-- A `$` without a number behind it decorates a marker, so an operand has one behind it. -/
theorem Makes.startsNumber_of_dollar (hlast : s.last = .other) (h : Makes s before ('$' :: t) e) :
    startsNumber t = true := by
  cases hstart : startsNumber t with
  | true => rfl
  | false =>
    exfalso
    obtain ⟨s', tok, hkind, -, hs, -⟩ := h.token rfl
    have hdollar : tok.kind = (scanDollar t).kind := hkind
    rw [scanDollar, hstart, if_neg Bool.false_ne_true] at hdollar
    refine not_step_decoration ?_ hlast hs
    rw [hdollar]
    split
    · exact .inl rfl
    · exact .inr rfl

/-- An amount of money without sign. -/
theorem yields_of_money {d : Text} (hlast : s.last = .other) (hloose : Loose s.pending)
    (hnumeral : Decimal.isNumeral (d.filter (· != ',')) = true) (hw : Text.Spaces w)
    (h : Makes s before ('$' :: (d ++ (percentText percent ++ w))) e) :
    Yields s (if percent then Decimal.value (d.filter (· != ',')) / 100.0 else Decimal.value (d.filter (· != ','))) e := by
  have hstart := h.startsNumber_of_dollar hlast
  obtain ⟨r, hd, hr⟩ := exists_whole true d
  generalize ha : whole true d = a at hd
  subst hd
  by_cases hcomma : ',' ∈ r
  · exfalso
    obtain ⟨x, y, rfl, hx⟩ := List.eq_append_cons_of_mem hcomma
    have htext : a ++ (x ++ ',' :: y) ++ (percentText percent ++ w) =
        a ++ (x ++ ',' :: (y ++ (percentText percent ++ w))) := by
      simp only [List.append_assoc, List.cons_append]
    have hwhole := whole_append true (a ++ (x ++ ',' :: y)) (stops_percentText hw percent rfl)
      (stops_percentText hw percent rfl)
    rw [ha, htext] at hwhole
    rw [htext] at hstart h
    refine not_makes_money_comma hloose hwhole (fun c hc => isPart_of_mem_numeral hnumeral ?_) hstart h
    refine List.mem_filter.mpr ⟨List.mem_append_right _ (List.mem_append_left _ hc), ?_⟩
    exact bne_iff_ne.mpr (ne_of_mem_of_not_mem hc hx)
  · have hne : a ++ r ≠ [] := by
      intro hnil
      rw [hnil] at hnumeral
      cases hnumeral
    have hpos : 0 < (a ++ r).length := List.length_pos_iff.mpr hne
    have hmore : (a ++ r ++ percentText percent).length - 1 + 1 = (a ++ r ++ percentText percent).length := by
      rw [List.length_append]
      omega
    have hscan : scan before '$' (a ++ r ++ (percentText percent ++ w)) =
        ⟨(scanDecimal true (a ++ r ++ (percentText percent ++ w))).kind,
          (scanDecimal true (a ++ r ++ (percentText percent ++ w))).more + 1⟩ := if_pos hstart
    rw [scanDecimal_numeral percent ha hr hcomma hnumeral hw, hmore] at hscan
    refine h.yields rfl hscan ?_ hw
    rw [← List.append_assoc, List.drop_left]

theorem yields_of_amount? (hlast : s.last = .other) (hloose : Loose s.pending) (hread : amount? t = some v)
    (hw : Text.Spaces w) (h : Makes s before (t ++ w) e) : Yields s v e := by
  by_cases hmoney : t.head? = some '$'
  · obtain ⟨t', rfl⟩ := List.head?_eq_some_iff.mp hmoney
    simp only [amount?, hmoney, if_true, List.drop_succ_cons, List.drop_zero, decide_true] at hread
    obtain ⟨v', hbody, rfl⟩ := Option.map_eq_some_iff.mp hread
    have hsplit := splitPercent_eq t'
    generalize splitPercent t' = q at hbody hsplit
    rw [hsplit, List.cons_append, List.append_assoc] at h
    unfold body? at hbody
    split at hbody
    · rename_i hnumeral
      obtain rfl := Option.some.inj hbody
      exact yields_of_money hlast hloose hnumeral hw h
    · cases hbody
  · simp only [amount?, hmoney, if_false, decide_false] at hread
    obtain ⟨v', hbody, rfl⟩ := Option.map_eq_some_iff.mp hread
    have hsplit := splitPercent_eq t
    generalize splitPercent t = q at hbody hsplit
    rw [hsplit, List.append_assoc] at h
    exact yields_of_body hloose hbody hw h

end Literals

end Parser

namespace Literal
open Worksheet.Parser

/-! ### Their values -/

section Eval
variable {t : Text} {v : Float} {e : Expr}

theorem result_eval_of_yields (h : Yields {} v e) (c : Context) : (e.eval c).result = .ok v := by
  obtain ⟨base, p, hconclude⟩ := h
  obtain rfl : Expr.number v base = e := Except.ok.inj hconclude
  rfl

theorem result_eval_of_negated {p q : Place}
    (h : Yields { ({} : State) with pending := [.prefixOp .negate p], reached := q } v e) (c : Context) :
    (e.eval c).result = .ok (-v) := by
  obtain ⟨base, q', hconclude⟩ := h
  obtain rfl : Expr.unary .negate (.number v base) = e := Except.ok.inj hconclude
  rfl

/-- An expression that is made of a literal has the value of the literal in every context. -/
theorem result_eval_of_makes {before : Lexer.Before} (hbefore : before.touchesName = false) (hread : read? t = some v)
    (hmakes : Makes {} before t e) (c : Context) : (e.eval c).result = .ok v := by
  obtain ⟨w, w', hw, hw', ht⟩ := exists_strip t
  obtain ⟨before, hmakes⟩ : ∃ before, Makes {} before (strip t ++ w') e := by
    rw [ht] at hmakes
    exact (hmakes.spaces hw rfl hbefore).elim (fun h => ⟨_, h⟩) fun h => ⟨_, h⟩
  unfold read? at hread
  dsimp only at hread
  generalize strip t = u at hread hmakes
  split at hread
  · rename_i hnan
    obtain rfl := Option.some.inj hread
    rw [hnan] at hmakes
    exact result_eval_of_yields (hmakes.yields rfl (Lexer.scan_nan hw') rfl hw') c
  split at hread
  · rename_i hinfinity
    obtain rfl := Option.some.inj hread
    rw [hinfinity] at hmakes
    exact result_eval_of_yields (hmakes.yields rfl (Lexer.scan_infinity hw') rfl hw') c
  split at hread
  · rename_i hinfinity
    obtain rfl := Option.some.inj hread
    rw [hinfinity] at hmakes
    obtain ⟨p, q, hbehind⟩ := Makes.minus rfl rfl hmakes
    exact result_eval_of_negated (hbehind.yields rfl (Lexer.scan_infinity hw') rfl hw') c
  rw [signed?_plain] at hread
  split at hread
  · rename_i hsign
    obtain ⟨u', rfl⟩ := List.head?_eq_some_iff.mp hsign
    obtain ⟨v', hamount, rfl⟩ := Option.map_eq_some_iff.mp hread
    obtain ⟨p, q, hbehind⟩ := Makes.minus rfl rfl hmakes
    have hloose : Loose [.prefixOp .negate p] := List.forall_mem_singleton.mpr (.inl ⟨_, _, rfl⟩)
    exact result_eval_of_negated (yields_of_amount? rfl hloose hamount hw' hbehind) c
  · exact result_eval_of_yields (yields_of_amount? rfl loose_nil hread hw' hmakes) c

/-- Where a text is read as a literal and as an expression, the expression has the value of the literal in every
    context. -/
theorem result_eval_of_read (hread : read? t = some v) (hparse : parseExpr t = .ok e) (c : Context) :
    (e.eval c).result = .ok v :=
  result_eval_of_makes rfl hread (makes_of_parseExpr hparse) c

end Eval

/-- An amount with a sign, a comma, a percentage and white space. -/
theorem result_eval_of_read_amount : let t := [' ', '-', '$', '1', ',', '2', '5', '0', '%', '\n']
    ∃ e, read? t = some (-12.5) ∧ parseExpr t = .ok e ∧ (e.eval {}).result = .ok (-12.5) := by
  intro t
  have hread : read? t = some (-12.5) := by decide +kernel
  have hparse : parseExpr t = .ok (.unary .negate (.number (Decimal.value ['1', '2', '5', '0'] / 100.0) 10)) := by rfl
  exact ⟨_, hread, hparse, result_eval_of_read hread hparse {}⟩

end Literal
end Worksheet
