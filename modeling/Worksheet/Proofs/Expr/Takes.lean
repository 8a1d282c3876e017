import Mathlib.Logic.Relation
import Worksheet.Proofs.Expr.Spine

/-! What the parser does with a token. `Takes` has one rule for each way in which a token is taken and says all of the
    state behind it; `Refuses` and `RefusesEnd` say what an error is and which place it names. An invariant of the parser
    is proved on these rules and on the single operators that are completed in between. -/

namespace Worksheet

namespace ParseCause

/-- An argument or an operand is not on the stack where the parser counts on it. -/
def isImbalance : ParseCause → Bool
  | notEnoughArguments _ | malformed => true
  | _ => false

/-- The tokens end before the expression does. -/
def isEarlyEnd : ParseCause → Bool
  | unexpectedEnd | emptyExpression => true
  | _ => false

end ParseCause

namespace Parser
open Token Grammar

def Pending.place : Pending → Place
  | .prefixOp _ p | .binaryOp _ p | .group p | .call _ p => p

/-! ### Completing operators -/

/-- The newest pending operator takes its operands. -/
inductive Completes : List Expr × List Pending → List Expr × List Pending → Prop
  | prefixOp {op : PrefixOp} {p : Place} {e : Expr} {es : List Expr} {ps : List Pending} :
    Completes (e :: es, .prefixOp op p :: ps) (.unary op e :: es, ps)
  | binaryOp {op : BinaryOp} {p : Place} {l r : Expr} {es : List Expr} {ps : List Pending} :
    Completes (r :: l :: es, .binaryOp op p :: ps) (.binary op l r :: es, ps)

/-- Pending operators take their operands, one after the other. -/
abbrev Completing : List Expr × List Pending → List Expr × List Pending → Prop := Relation.ReflTransGen Completes

/-- An operand is missing for an operator that waits. -/
def Starves (ps : List Pending) (e : ParseError) : Prop :=
  ∃ p ∈ ps, ∃ symbol, e = ⟨.missingOperand symbol, p.place.line, p.place.col⟩

/-- Operators are completed, or one of them starves. -/
def Outcome (es : List Expr) (ps : List Pending) : Except ParseError (List Expr × List Pending) → Prop
  | .ok r => Completing (es, ps) r
  | .error e => Starves ps e

section Completing
variable {es es' : List Expr} {ps ps' : List Pending} {p : Place} {e : ParseError}

/-- What waits in the end has waited from the start. -/
theorem Completing.suffix {a b : List Expr × List Pending} (h : Completing a b) : b.2 <:+ a.2 := by
  induction h with
  | refl => exact List.suffix_refl _
  | tail _ hone ih =>
    cases hone with
    | prefixOp | binaryOp => exact (List.suffix_cons _ _).trans ih

theorem Completes.outcome {q : Pending} {r : Except ParseError (List Expr × List Pending)}
    (h : Completes (es, q :: ps) (es', ps)) (hr : Outcome es' ps r) : Outcome es (q :: ps) r := by
  cases r with
  | ok r => exact .head h hr
  | error e =>
    obtain ⟨p, hp, symbol, he⟩ := hr
    exact ⟨p, List.mem_cons_of_mem q hp, symbol, he⟩

theorem completes_of_applyPrefix {op : PrefixOp} (h : applyPrefix op p es = .ok es') :
    Completes (es, .prefixOp op p :: ps) (es', ps) := by
  cases es with
  | nil => cases h
  | cons e es =>
    cases h
    exact .prefixOp

theorem completes_of_applyBinary {op : BinaryOp} (h : applyBinary op p es = .ok es') :
    Completes (es, .binaryOp op p :: ps) (es', ps) := by
  match es, h with
  | [], h | [_], h => cases h
  | r :: l :: es, h =>
    cases h
    exact .binaryOp

theorem starves_of_applyPrefix {op : PrefixOp} (h : applyPrefix op p es = .error e) :
    Starves (.prefixOp op p :: ps) e := by
  cases es with
  | nil =>
    cases h
    exact ⟨_, List.mem_cons_self, _, rfl⟩
  | cons => cases h

theorem starves_of_applyBinary {op : BinaryOp} (h : applyBinary op p es = .error e) :
    Starves (.binaryOp op p :: ps) e := by
  match es, h with
  | [], h | [_], h =>
    cases h
    exact ⟨_, List.mem_cons_self, _, rfl⟩
  | _ :: _ :: _, h => cases h

theorem outcome_unwind (es : List Expr) (ps : List Pending) : Outcome es ps (unwind es ps) := by
  fun_induction unwind es ps with
  | case1 es op p ps es' happly ih => exact (completes_of_applyPrefix happly).outcome ih
  | case3 es op p ps es' happly ih => exact (completes_of_applyBinary happly).outcome ih
  | case2 es op p ps e happly => exact starves_of_applyPrefix happly
  | case4 es op p ps e happly => exact starves_of_applyBinary happly
  | case5 es ps => exact .refl

theorem outcome_reduce (next : BinaryOp) (es : List Expr) (ps : List Pending) : Outcome es ps (reduce next es ps) := by
  fun_induction reduce next es ps with
  | case1 es op p ps _ es' happly ih => exact (completes_of_applyPrefix happly).outcome ih
  | case2 es op p ps _ e happly => exact starves_of_applyPrefix happly
  | case4 es op p ps _ es' happly ih => exact (completes_of_applyBinary happly).outcome ih
  | case5 es op p ps _ e happly => exact starves_of_applyBinary happly
  | case3 | case6 | case7 => exact .refl

theorem completing_of_unwind (h : unwind es ps = .ok (es', ps')) : Completing (es, ps) (es', ps') := by
  have houtcome := outcome_unwind es ps
  rwa [h] at houtcome

theorem starves_of_unwind (h : unwind es ps = .error e) : Starves ps e := by
  have houtcome := outcome_unwind es ps
  rwa [h] at houtcome

theorem completing_of_reduce {next : BinaryOp} (h : reduce next es ps = .ok (es', ps')) :
    Completing (es, ps) (es', ps') := by
  have houtcome := outcome_reduce next es ps
  rwa [h] at houtcome

theorem starves_of_reduce {next : BinaryOp} (h : reduce next es ps = .error e) : Starves ps e := by
  have houtcome := outcome_reduce next es ps
  rwa [h] at houtcome

/-- Nothing waits behind the operators if it is no parenthesis. -/
theorem completing_nil_of_unwind (h : unwind es ps = .ok (es', ps')) (hgroup : ∀ p qs, ps' ≠ .group p :: qs)
    (hcall : ∀ f p qs, ps' ≠ .call f p :: qs) : Completing (es, ps) (es', []) := by
  have hopen := (unwind_depth h).2
  cases ps' with
  | nil => exact completing_of_unwind h
  | cons p qs =>
    rcases hopen p rfl with ⟨q, rfl⟩ | ⟨f, q, rfl⟩
    · exact absurd rfl (hgroup q qs)
    · exact absurd rfl (hcall f q qs)

end Completing

/-! ### Taking a token -/

/-- The operand that a token is by itself. -/
inductive IsOperand (t : Token) : Expr → Last → Prop
  | number {v : Float} {base : Nat} {style : Style} (ht : t.kind = .number v base style) :
    IsOperand t (.number v base) .other
  | name (ht : t.kind = .name) : IsOperand t (.var t.lexeme) .name

/-- The parser takes the token `t`. The state names, in this order: operands, pending operators and parentheses, open
    calls, whether an operand is due, the last token, and the place reached. -/
inductive Takes (t : Token) : State → State → Prop
  | dress {es : List Expr} {ps : List Pending} {fs : List Frame} {due : Bool} {l l' : Last} {q : Place}
    (hl : l' ≠ .name) : Takes t ⟨es, ps, fs, due, l, q⟩ ⟨es, ps, fs, due, l', q⟩
  | operand {es : List Expr} {ps : List Pending} {fs : List Frame} {e : Expr} {l l' : Last} {q : Place}
    (he : IsOperand t e l') : Takes t ⟨es, ps, fs, true, l, q⟩ ⟨e :: es, ps, fs, false, l', placeBehind t⟩
  | prefixOp {es : List Expr} {ps : List Pending} {fs : List Frame} {op : PrefixOp} {l : Last} {q : Place}
    (hop : PrefixOp.ofSymbol? t.lexeme = some op) :
    Takes t ⟨es, ps, fs, true, l, q⟩ ⟨es, .prefixOp op (placeOf t) :: ps, fs, true, .other, placeBehind t⟩
  | binaryOp {es es' : List Expr} {ps ps' : List Pending} {fs : List Frame} {op : BinaryOp} {l : Last} {q : Place}
    (hop : BinaryOp.ofSymbol? t.lexeme = some op) (h : Completing (es, ps) (es', ps')) :
    Takes t ⟨es, ps, fs, false, l, q⟩ ⟨es', .binaryOp op (placeOf t) :: ps', fs, true, .other, placeBehind t⟩
  | group {es : List Expr} {ps : List Pending} {fs : List Frame} {l : Last} {q : Place} :
    Takes t ⟨es, ps, fs, true, l, q⟩ ⟨es, .group (placeOf t) :: ps, fs, true, .other, placeBehind t⟩
  /-- The name of the call was an operand until now. -/
  | call {es : List Expr} {ps : List Pending} {fs : List Frame} {due : Bool} {f : Text} {q : Place} :
    Takes t ⟨.var f :: es, ps, fs, due, .name, q⟩ ⟨es, .call f (placeOf t) :: ps, ⟨f, 0⟩ :: fs, true, .other, q⟩
  | separator {es es' : List Expr} {ps ps' : List Pending} {fs : List Frame} {g f : Text} {n : Nat} {p q : Place}
    {l : Last} (h : Completing (es, ps) (es', .call f p :: ps')) :
    Takes t ⟨es, ps, ⟨g, n⟩ :: fs, false, l, q⟩ ⟨es', .call f p :: ps', ⟨g, n + 1⟩ :: fs, true, .other, placeBehind t⟩
  | closeGroup {es es' : List Expr} {ps ps' : List Pending} {fs : List Frame} {l : Last} {p q : Place}
    (h : Completing (es, ps) (es', .group p :: ps')) :
    Takes t ⟨es, ps, fs, false, l, q⟩ ⟨es', ps', fs, false, .other, placeBehind t⟩
  | closeEmpty {es es' : List Expr} {ps ps' : List Pending} {fs : List Frame} {g f : Text} {l : Last} {p q : Place}
    (h : Completing (es, ps) (es', .call f p :: ps')) :
    Takes t ⟨es, ps, ⟨g, 0⟩ :: fs, true, l, q⟩ ⟨.call g [] :: es', ps', fs, false, .other, placeBehind t⟩
  | closeCall {es args es' : List Expr} {ps ps' : List Pending} {fs : List Frame} {g f : Text} {l : Last} {p q : Place}
    {n : Nat} (h : Completing (es, ps) (args.reverse ++ es', .call f p :: ps')) (hargs : args.length = n + 1) :
    Takes t ⟨es, ps, ⟨g, n⟩ :: fs, false, l, q⟩ ⟨.call g args :: es', ps', fs, false, .other, placeBehind t⟩

/-- The parser refuses the token `t`: the error names the place of an operator that waits, or that of `t`. -/
inductive Refuses (t : Token) (s : State) : ParseError → Prop
  | operator {e : ParseError} (h : Starves s.pending e) : Refuses t s e
  | token {cause : ParseCause} (himbalance : cause.isImbalance = false) (hend : cause.isEarlyEnd = false) :
    Refuses t s ⟨cause, t.line, t.col⟩
  /-- The call that a separator or a parenthesis belongs to has no frame, or fewer operands than its frame counts. -/
  | imbalance {cause : ParseCause} {es : List Expr} {ps : List Pending} {f : Text} {p : Place}
    (himbalance : cause.isImbalance = true) (h : Completing (s.operands, s.pending) (es, .call f p :: ps))
    (hframes : ∀ frame ∈ s.frames.head?, s.operandDue = false ∧ es.length ≤ frame.closedArgs) :
    Refuses t s ⟨cause, t.line, t.col⟩

section Step
variable {s s' : State} {t : Token} {e : ParseError} {l : Last}

theorem takes_of_separate (h : separate { s with last := .other, reached := placeBehind t } t = .ok s') :
    Takes t s s' := by
  obtain ⟨es, ps, fs, due, l, q⟩ := s
  unfold separate at h
  dsimp only at h
  cases due with
  | true => cases h
  | false =>
    rw [if_neg Bool.false_ne_true] at h
    split at h
    · cases h
    · rename_i hunwind
      split at h
      · cases h
      · cases h
        exact .separator (completing_of_unwind hunwind)
    · cases h

theorem takes_of_close (h : close { s with last := .other, reached := placeBehind t } t = .ok s') : Takes t s s' := by
  obtain ⟨es, ps, fs, due, l, q⟩ := s
  unfold close at h
  dsimp only at h
  split at h
  · cases h
  · rename_i es' f p ps' hunwind
    have hcompleting := completing_of_unwind hunwind
    unfold closeCall at h
    dsimp only at h
    cases fs with
    | nil => cases h
    | cons frame fs =>
      obtain ⟨g, n⟩ := frame
      cases due with
      | true =>
        cases n with
        | zero =>
          cases h
          exact .closeEmpty hcompleting
        | succ n => cases h
      | false =>
        dsimp only at h
        rw [if_neg (by simp), if_neg Bool.false_ne_true] at h
        split at h
        · cases h
        · rename_i hcount
          cases h
          have hargs : Completing (es, ps) ((es'.take (n + 1)).reverse.reverse ++ es'.drop (n + 1), .call f p :: ps') := by
            rw [List.reverse_reverse, List.take_append_drop]
            exact hcompleting
          refine .closeCall hargs ?_
          rw [List.length_reverse, List.length_take]
          omega
  · rename_i hunwind
    cases due with
    | true => cases h
    | false =>
      cases h
      exact .closeGroup (completing_of_unwind hunwind)
  · cases h

theorem takes_of_operate (h : operate { s with last := .other, reached := placeBehind t } t = .ok s') :
    Takes t s s' := by
  obtain ⟨es, ps, fs, due, l, q⟩ := s
  unfold operate at h
  dsimp only at h
  cases due with
  | true =>
    rw [if_pos rfl] at h
    split at h
    · rename_i hop
      cases h
      exact .prefixOp hop
    · cases h
  | false =>
    rw [if_neg Bool.false_ne_true] at h
    split at h
    · cases h
    · rename_i hop
      split at h
      · cases h
      · rename_i hreduce
        cases h
        exact .binaryOp hop (completing_of_reduce hreduce)

theorem takes_of_read (h : read { s with last := .other, reached := placeBehind t } t = .ok s') : Takes t s s' := by
  unfold read at h
  split at h <;> rename_i hk
  · cases h
  · obtain ⟨es, ps, fs, due, l, q⟩ := s
    cases due with
    | true =>
      cases h
      exact .operand (.number hk)
    | false => cases h
  · obtain ⟨es, ps, fs, due, l, q⟩ := s
    cases due with
    | true =>
      cases h
      exact .operand (.name hk)
    | false => cases h
  · obtain ⟨es, ps, fs, due, l, q⟩ := s
    cases due with
    | true =>
      cases h
      exact .group
    | false => cases h
  · exact takes_of_separate h
  · exact takes_of_separate h
  · exact takes_of_close h
  · exact takes_of_operate h
  · cases h

theorem takes_of_openCall (hlast : s.last = .name) (h : openCall s t = .ok s') : Takes t s s' := by
  obtain ⟨es, ps, fs, due, l, q⟩ := s
  obtain rfl : l = .name := hlast
  unfold openCall at h
  dsimp only at h
  split at h
  · cases h
    exact .call
  · cases h

/-- A token that is taken is taken by one of the rules. -/
theorem takes_of_step (h : step s t = .ok s') : Takes t s s' := by
  cases hd : isDress s.last t with
  | true =>
    rw [step_dress hd] at h
    cases h
    exact .dress (follow_ne_name_of_isDress hd)
  | false =>
    by_cases hcall : t.kind = .openParen ∧ s.last = .name
    · have hopen : openCall s t = .ok s' := by simpa [step, hcall.1, hcall.2] using h
      exact takes_of_openCall hcall.2 hopen
    · rw [step_eq_read hd hcall] at h
      exact takes_of_read h

theorem refuses_of_separate (h : separate s t = .error e) : Refuses t s e := by
  unfold separate at h
  split at h
  · cases h
    exact .token rfl rfl
  · split at h
    · rename_i hunwind
      cases h
      exact .operator (starves_of_unwind hunwind)
    · rename_i hunwind
      split at h
      · rename_i hframes
        cases h
        exact .imbalance rfl (completing_of_unwind hunwind) (by simp [hframes])
      · cases h
    · cases h
      exact .token rfl rfl

theorem refuses_of_close (h : close s t = .error e) : Refuses t s e := by
  unfold close at h
  split at h
  · rename_i hunwind
    cases h
    exact .operator (starves_of_unwind hunwind)
  · rename_i hunwind
    have hcompleting := completing_of_unwind hunwind
    unfold closeCall at h
    split at h
    · rename_i hframes
      cases h
      exact .imbalance rfl hcompleting (by simp [hframes])
    · rename_i hframes
      split at h
      · cases h
        exact .token rfl rfl
      · cases hdue : s.operandDue with
        | true =>
          rw [hdue] at h
          cases h
        | false =>
          rw [hdue, if_neg Bool.false_ne_true] at h
          dsimp only at h
          split at h
          · rename_i hcount
            cases h
            refine .imbalance rfl hcompleting ?_
            rw [hframes]
            rintro frame ⟨⟩
            exact ⟨hdue, Nat.le_of_lt_succ hcount⟩
          · cases h
  · split at h
    · cases h
      exact .token rfl rfl
    · cases h
  · cases h
    exact .token rfl rfl

theorem refuses_of_operate (h : operate s t = .error e) : Refuses t s e := by
  unfold operate at h
  split at h
  · split at h
    · cases h
    · cases h
      exact .token rfl rfl
  · split at h
    · cases h
      exact .token rfl rfl
    · split at h
      · rename_i hreduce
        cases h
        exact .operator (starves_of_reduce hreduce)
      · cases h

theorem refuses_of_read (h : read s t = .error e) : Refuses t s e := by
  unfold read at h
  split at h
  · cases h
    exact .token rfl rfl
  · split at h <;> cases h
    exact .token rfl rfl
  · split at h <;> cases h
    exact .token rfl rfl
  · split at h <;> cases h
    exact .token rfl rfl
  · exact refuses_of_separate h
  · exact refuses_of_separate h
  · exact refuses_of_close h
  · exact refuses_of_operate h
  · cases h
    exact .token rfl rfl

/-- What the last token was and the place reached have no part in a refusal. -/
theorem Refuses.of_read {p : Place} (h : Refuses t { s with last := l, reached := p } e) : Refuses t s e := by
  cases h with
  | operator h => exact .operator h
  | token himbalance hend => exact .token himbalance hend
  | imbalance himbalance h hframes => exact .imbalance himbalance h hframes

theorem refuses_of_step (h : step s t = .error e) : Refuses t s e := by
  cases hd : isDress s.last t with
  | true =>
    rw [step_dress hd] at h
    cases h
  | false =>
    by_cases hcall : t.kind = .openParen ∧ s.last = .name
    · have hopen : openCall s t = .error e := by simpa [step, hcall.1, hcall.2] using h
      unfold openCall at hopen
      split at hopen <;> cases hopen
      exact .token rfl rfl
    · rw [step_eq_read hd hcall] at h
      exact (refuses_of_read h).of_read

end Step

/-! ### The end -/

/-- The parser refuses to end: the error names the place that it has reached, or that of an operator or a parenthesis
    that waits. -/
inductive RefusesEnd (s : State) : ParseError → Prop
  | early {cause : ParseCause} (hend : cause.isEarlyEnd = true) : RefusesEnd s ⟨cause, s.reached.line, s.reached.col⟩
  | waiting {cause : ParseCause} {p : Pending} (hp : p ∈ s.pending) (himbalance : cause.isImbalance = false)
    (hend : cause.isEarlyEnd = false) : RefusesEnd s ⟨cause, p.place.line, p.place.col⟩
  /-- No operator waits any more, and it is not one operand that is left. -/
  | imbalance {cause : ParseCause} {es : List Expr} (himbalance : cause.isImbalance = true)
    (hdue : s.operandDue = false) (h : Completing (s.operands, s.pending) (es, [])) (hlength : es.length ≠ 1) :
    RefusesEnd s ⟨cause, s.reached.line, s.reached.col⟩

section Conclude
variable {s : State} {e : Expr}

/-- The expression is the one operand that is left when all operators are completed. -/
theorem completing_of_conclude (h : conclude s = .ok e) :
    s.operandDue = false ∧ Completing (s.operands, s.pending) ([e], []) := by
  unfold conclude at h
  split at h
  · split at h <;> cases h
  · rename_i hdue
    rw [Bool.not_eq_true] at hdue
    refine ⟨hdue, ?_⟩
    unfold complete at h
    split at h
    · cases h
    · cases h
    · cases h
    · rename_i hgroup hcall hunwind
      cases h
      exact completing_nil_of_unwind hunwind (fun p qs => hgroup p qs) fun f p qs => hcall f p qs
    · cases h

theorem refusesEnd_of_conclude {err : ParseError} (h : conclude s = .error err) : RefusesEnd s err := by
  unfold conclude at h
  split at h
  · split at h <;> cases h <;> exact .early rfl
  · rename_i hdue
    rw [Bool.not_eq_true] at hdue
    unfold complete at h
    split at h
    · rename_i hunwind
      cases h
      obtain ⟨p, hp, symbol, rfl⟩ := starves_of_unwind hunwind
      exact .waiting hp rfl rfl
    · rename_i hunwind
      cases h
      have hsuffix := (completing_of_unwind hunwind).suffix
      exact .waiting (hsuffix.mem List.mem_cons_self) rfl rfl
    · rename_i hunwind
      cases h
      have hsuffix := (completing_of_unwind hunwind).suffix
      exact .waiting (hsuffix.mem List.mem_cons_self) rfl rfl
    · cases h
    · rename_i r hgroup hcall hone hunwind
      cases h
      obtain ⟨es, ps⟩ := r
      refine .imbalance rfl hdue (completing_nil_of_unwind hunwind ?_ ?_) fun hlength => ?_
      · exact fun p qs hps => hgroup es p qs (hps ▸ rfl)
      · exact fun f p qs hps => hcall es f p qs (hps ▸ rfl)
      · obtain ⟨e, rfl⟩ := List.length_eq_one_iff.mp hlength
        exact hone e ps rfl

end Conclude

/-! ### All tokens -/

section Run
variable {s s' : State} {ts : List Token} {e : ParseError}

/-- What every token that is taken keeps is kept by all tokens together. -/
theorem run_keeps {P : State → Prop} (hs : P s) (hkeep : ∀ t ∈ ts, ∀ s s', P s → Takes t s s' → P s')
    (h : ts.foldlM step s = .ok s') : P s' := by
  induction ts generalizing s with
  | nil =>
    cases h
    exact hs
  | cons t ts ih =>
    obtain ⟨s₁, hstep, hrest⟩ := foldlM_cons_eq_ok h
    have hs₁ := hkeep t List.mem_cons_self s s₁ hs (takes_of_step hstep)
    exact ih hs₁ (fun u hu => hkeep u (List.mem_cons_of_mem t hu)) hrest

/-- One of the tokens is refused, those before it having been taken. -/
theorem exists_refuses (h : ts.foldlM step s = .error e) :
    ∃ us t, us ++ [t] <+: ts ∧ ∃ s', us.foldlM step s = .ok s' ∧ Refuses t s' e := by
  induction ts generalizing s with
  | nil => cases h
  | cons t ts ih =>
    cases hstep : step s t with
    | error err =>
      rw [List.foldlM_cons, hstep] at h
      cases h
      exact ⟨[], t, List.prefix_append [t] ts, s, rfl, refuses_of_step hstep⟩
    | ok s₁ =>
      rw [foldlM_cons_ok hstep] at h
      obtain ⟨us, u, hus, s', hrun, hrefuses⟩ := ih h
      exact ⟨t :: us, u, (List.prefix_cons_inj t).mpr hus, s', (foldlM_cons_ok hstep).trans hrun, hrefuses⟩

/-- Tokens that make no expression have one that is refused, or they are all taken and the end is. -/
theorem parseTokens_error (h : parseTokens ts = .error e) : ∃ us s, us <+: ts.takeWhile (!·.kind.isFinish) ∧
    us.foldlM step {} = .ok s ∧ ((∃ t ∈ ts.takeWhile (!·.kind.isFinish), Refuses t s e) ∨ RefusesEnd s e) := by
  unfold parseTokens at h
  split at h
  · rename_i s hs
    exact ⟨_, s, List.prefix_rfl, hs, .inr (refusesEnd_of_conclude h)⟩
  · rename_i err herror
    cases h
    obtain ⟨us, t, hus, s, hs, hrefuses⟩ := exists_refuses herror
    have hmem : t ∈ us ++ [t] := List.mem_append_right us List.mem_cons_self
    exact ⟨us, s, (List.prefix_append us [t]).trans hus, hs, .inl ⟨t, hus.subset hmem, hrefuses⟩⟩

end Run

end Parser
end Worksheet
