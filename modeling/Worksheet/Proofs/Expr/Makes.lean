import Worksheet.Proofs.Expr.ParseComplete
import Worksheet.Proofs.Token.LineByLine
import Worksheet.Proofs.Token.Literal
import Worksheet.Proofs.Token.Tiling

/-! The parser on a text, token by token. `Makes s before t e` says that a parser in state `s` makes `e` of the text `t`. A
    step that is taken says what the token was; white space makes no difference, and a token that the state has no
    place for makes no expression whatever follows. -/

namespace Worksheet
namespace Parser
open Token Lexer Grammar

/-- The expression that tokens make behind those that led to `s`. -/
def finish (s : State) (ts : List Token) : Except ParseError Expr :=
  match (ts.takeWhile (!·.kind.isFinish)).foldlM step s with
  | .ok s => conclude s
  | .error e => .error e

section Finish
variable {s : State} {t : Token} {ts : List Token} {e : Expr}

theorem exists_step_of_finish (ht : t.kind.isFinish = false) (h : finish s (t :: ts) = .ok e) :
    ∃ s', step s t = .ok s' ∧ finish s' ts = .ok e := by
  unfold finish at h
  rw [List.takeWhile_cons, ht] at h
  cases hrun : (t :: ts.takeWhile (!·.kind.isFinish)).foldlM step s with
  | error err =>
    simp [hrun] at h
  | ok r =>
    obtain ⟨s', hs, hrest⟩ := foldlM_cons_eq_ok hrun
    refine ⟨s', hs, ?_⟩
    unfold finish
    rw [hrest]
    simpa [hrun] using h

theorem conclude_of_finish (ht : t.kind.isFinish = true) (h : finish s (t :: ts) = .ok e) : conclude s = .ok e := by
  unfold finish at h
  rw [List.takeWhile_cons, ht] at h
  exact h

end Finish

/-! ### Steps -/

section Steps
variable {s s' : State} {t : Token}

theorem step_number {v : Float} {base : Nat} {style : Style} (ht : t.kind = .number v base style)
    (hs : step s t = .ok s') : s.operandDue = true ∧
      s' = pushOperand { s with reached := placeBehind t } (.number v base) .other := by
  rw [step_read (by simp [isDress, ht]) (by simp [ht])] at hs
  unfold read at hs
  rw [ht] at hs
  cases hdue : s.operandDue with
  | false => simp [hdue, fail] at hs
  | true =>
    simp only [hdue, if_true, Except.ok.injEq] at hs
    exact ⟨rfl, hs.symm⟩

theorem not_step_word (ht : isWord t.kind = true) (hdue : s.operandDue = false) : step s t ≠ .ok s' := by
  have hread : step s t = read { s with last := .other, reached := placeBehind t } t := by
    refine step_read (fun last => ?_) (fun hopen => ?_)
    · cases hk : t.kind <;> simp_all [isDress, isWord]
    · rw [hopen] at ht
      cases ht
  intro hs
  rw [hread] at hs
  unfold read at hs
  split at hs <;> simp_all [isWord, fail]

theorem not_step_fault {cause : Fault} (ht : t.kind = .fault cause) : step s t ≠ .ok s' := by
  intro hs
  rw [step_read (by simp [isDress, ht]) (by simp [ht])] at hs
  unfold read at hs
  rw [ht] at hs
  cases hs

/-- A marker is no part of an expression, nor is a suffix that stands behind no name. -/
theorem not_step_decoration (ht : t.kind.isMarker = true ∨ t.kind.isSuffix = true) (hlast : s.last = .other) :
    step s t ≠ .ok s' := by
  intro hs
  rw [step_eq_read (by rw [hlast]; cases hk : t.kind <;> simp_all [isDress, Kind.isMarker, Kind.marker?, Kind.isSuffix])
    (by rw [hlast]; simp)] at hs
  unfold read at hs
  split at hs <;> simp_all [Kind.isMarker, Kind.marker?, Kind.isSuffix, fail]

/-- Whatever waits waits for an operand; no parenthesis is open. -/
def Loose (ps : List Pending) : Prop := ∀ p ∈ ps, (∃ op q, p = .prefixOp op q) ∨ ∃ op q, p = .binaryOp op q

theorem loose_nil : Loose [] := nofun

theorem unwind_loose {ps ps' : List Pending} {es es' : List Expr} (h : Loose ps) (hs : unwind es ps = .ok (es', ps')) :
    ps' = [] := by
  induction ps generalizing es with
  | nil =>
    cases hs
    rfl
  | cons p ps ih =>
    obtain ⟨hp, hps⟩ := List.forall_mem_cons.mp h
    rcases hp with ⟨op, q, rfl⟩ | ⟨op, q, rfl⟩
    · unfold unwind at hs
      split at hs
      · exact ih hps hs
      · cases hs
    · unfold unwind at hs
      split at hs
      · exact ih hps hs
      · cases hs

theorem reduce_loose {next : BinaryOp} {ps ps' : List Pending} {es es' : List Expr} (h : Loose ps)
    (hs : reduce next es ps = .ok (es', ps')) : Loose ps' := by
  induction ps generalizing es with
  | nil =>
    cases hs
    exact loose_nil
  | cons p ps ih =>
    obtain ⟨hp, hps⟩ := List.forall_mem_cons.mp h
    rcases hp with ⟨op, q, rfl⟩ | ⟨op, q, rfl⟩
    · unfold reduce at hs
      split at hs
      · split at hs
        · exact ih hps hs
        · cases hs
      · cases hs
        exact h
    · unfold reduce at hs
      split at hs
      · split at hs
        · exact ih hps hs
        · cases hs
      · cases hs
        exact h

/-- Without an open parenthesis there is nothing to separate or to close. -/
theorem not_separate_loose (h : Loose s.pending) : separate s t ≠ .ok s' := by
  intro hs
  unfold separate at hs
  split at hs
  · cases hs
  · split at hs
    · cases hs
    · rename_i hunwind
      cases unwind_loose h hunwind
    · cases hs

theorem not_close_loose (h : Loose s.pending) : close s t ≠ .ok s' := by
  intro hs
  unfold close at hs
  split at hs
  · cases hs
  · rename_i hunwind
    cases unwind_loose h hunwind
  · rename_i hunwind
    cases unwind_loose h hunwind
  · cases hs

theorem operate_loose (h : Loose s.pending) (hs : operate s t = .ok s') : Loose s'.pending := by
  unfold operate at hs
  split at hs
  · split at hs
    · cases hs
      exact List.forall_mem_cons.mpr ⟨.inl ⟨_, _, rfl⟩, h⟩
    · cases hs
  · split at hs
    · cases hs
    · split at hs
      · cases hs
      · rename_i hreduce
        cases hs
        exact List.forall_mem_cons.mpr ⟨.inr ⟨_, _, rfl⟩, reduce_loose h hreduce⟩

/-- Behind an operand every operator asks for another one. -/
theorem operate_binary (hdue : s.operandDue = false) (hs : operate s t = .ok s') : s'.operandDue = true := by
  unfold operate at hs
  rw [hdue, if_neg Bool.false_ne_true] at hs
  split at hs
  · cases hs
  · split at hs
    · cases hs
    · cases hs
      rfl

/-- Only an opening parenthesis opens one. -/
theorem step_loose (h : Loose s.pending) (ht : t.kind ≠ .openParen) (hs : step s t = .ok s') : Loose s'.pending := by
  cases hd : isDress s.last t with
  | true =>
    rw [step_dress hd] at hs
    cases hs
    exact h
  | false =>
    rw [step_eq_read hd fun hopen => ht hopen.1] at hs
    unfold read at hs
    split at hs
    · cases hs
    · split at hs <;> cases hs
      exact h
    · split at hs <;> cases hs
      exact h
    · rename_i hopen
      exact absurd hopen ht
    · exact absurd hs (not_separate_loose h)
    · exact absurd hs (not_separate_loose h)
    · exact absurd hs (not_close_loose h)
    · refine operate_loose ?_ hs
      exact h
    · cases hs

end Steps

/-! ### Texts -/

/-- In state `s` the parser makes `e` of the text `t`; `before` is what stands before the text. -/
def Makes (s : State) (before : Before) (t : Text) (e : Expr) : Prop := ∃ p, finish s (lexFrom 0 before p t) = .ok e

section Makes
variable {s : State} {before : Before} {c : Char} {t w x y : Text} {e : Expr}

/-- A parser begins where an operand is due. -/
theorem makes_of_parseExpr (h : parseExpr t = .ok e) : Makes {} {} t e := ⟨{}, h⟩

theorem Makes.conclude (h : Makes s before [] e) : conclude s = .ok e := by
  obtain ⟨p, hp⟩ := h
  rw [lexFrom_nil] at hp
  exact conclude_of_finish rfl hp

/-- The token at the head of the text is a step, and the rest is read behind it. -/
theorem Makes.token (hc : Byte.isBlank c = false) (h : Makes s before (c :: t) e) : ∃ s' tok,
    tok.kind = (scan before c t).kind ∧ tok.lexeme = c :: t.take (scan before c t).more ∧ step s tok = .ok s' ∧
      Makes s' (.ofKind (scan before c t).kind) (t.drop (scan before c t).more) e := by
  obtain ⟨p, hp⟩ := h
  rw [lexFrom_token hc] at hp
  obtain ⟨s', hs, hrest⟩ := exists_step_of_finish (isFinish_scan before c t) hp
  refine ⟨s', _, rfl, rfl, hs, (p.after c).advance (t.take (scan before c t).more), ?_⟩
  have hlength : (t.take (scan before c t).more).length = (scan before c t).more := by
    rw [List.length_take, Nat.min_eq_left (more_scan_le before c t)]
  have hskip := lexFrom_skip (.ofKind (scan before c t).kind) (p.after c) (t.take (scan before c t).more)
    (t.drop (scan before c t).more)
  rw [hlength, List.take_append_drop] at hskip
  rw [← hskip]
  exact hrest

/-- White space is passed over. -/
theorem Makes.spaces (hw : Text.Spaces w) (hlast : s.last = .other) (hbefore : before.touchesName = false)
    (h : Makes s before (w ++ t) e) : Makes s before t e ∨ Makes s {} t e := by
  induction w generalizing before with
  | nil => exact .inl h
  | cons c w ih =>
    obtain ⟨hc, hw'⟩ := List.forall_mem_cons.mp hw
    cases hblank : Byte.isBlank c with
    | true =>
      obtain ⟨p, hp⟩ := h
      rw [List.cons_append, lexFrom_blank hblank] at hp
      have hsame : { before with touchesName := false } = before := by rw [← hbefore]
      rw [hsame] at hp
      exact ih hw' hbefore ⟨_, hp⟩
    | false =>
      simp only [Byte.isSpace, hblank, Bool.false_or, Bool.or_eq_true, beq_iff_eq] at hc
      obtain ⟨s', tok, hkind, -, hs, hrest⟩ := h.token hblank
      rcases hc with (rfl | rfl) | rfl
      · have hsame : s' = s := by
          have hnewline : step s tok = .ok { s with last := .other } := by
            unfold step
            rw [hkind]
            rfl
          rw [hnewline, ← hlast] at hs
          exact (Except.ok.inj hs).symm
        rw [hsame] at hrest
        exact .inr ((ih hw' rfl hrest).elim id id)
      · exact absurd hs (not_step_fault hkind)
      · exact absurd hs (not_step_fault hkind)

theorem isBlank_of {p : Char → Bool} (hp : [' ', '\t', '\r'].any p = false) (hc : p c = true) : Byte.isBlank c = false := by
  refine Bool.eq_false_iff.mpr fun hblank => ?_
  have hstop := (Text.ends_cons (t := []).mpr hblank).stops hp c rfl
  rw [hc] at hstop
  cases hstop

/-- A comma outside of parentheses, with nothing but parts of a literal before it, makes no expression. -/
theorem not_makes_comma (hloose : Loose s.pending) (hx : ∀ c ∈ x, Literal.isPart c = true) :
    ¬Makes s before (x ++ ',' :: y) e := by
  induction hn : x.length using Nat.strongRecOn generalizing x s before with
  | _ n ih =>
    intro h
    rcases x with - | ⟨c, x⟩
    · obtain ⟨s', tok, hkind, -, hs, -⟩ := h.token rfl
      have hcomma : tok.kind = .comma := hkind
      rw [step_read (by simp [isDress, hcomma]) (by simp [hcomma])] at hs
      unfold read at hs
      rw [hcomma] at hs
      refine not_separate_loose ?_ hs
      exact hloose
    · obtain ⟨hc, hx⟩ := List.forall_mem_cons.mp hx
      obtain ⟨s', tok, hkind, -, hs, hrest⟩ := h.token (isBlank_of rfl hc)
      have hscan := outside_scan before hc (x ++ ',' :: y)
      have hmore : (scan before c (x ++ ',' :: y)).more ≤ x.length :=
        Nat.le_of_succ_le_succ (hscan.uncut.le_length (x := c :: x) rfl)
      rw [List.append_eq, List.drop_append_of_le_length hmore] at hrest
      refine ih _ ?_ (step_loose hloose (hkind ▸ hscan.opens) hs) (fun d hd => hx d (List.mem_of_mem_drop hd)) rfl hrest
      rw [← hn, List.length_drop, List.length_cons]
      omega

/-- Behind an operand no word may follow, nor a base. -/
theorem not_makes_touching (hdue : s.operandDue = false) (hlast : s.last = .other)
    (hc : Byte.isNamePart c = true ∨ c = '#') : ¬Makes s before (c :: t) e := by
  intro h
  rcases hc with hc | rfl
  · obtain ⟨s', tok, hkind, -, hs, -⟩ := h.token (isBlank_of rfl hc)
    exact not_step_word (hkind ▸ isWord_scan before hc t) hdue hs
  · obtain ⟨s', tok, hkind, -, hs, -⟩ := h.token rfl
    have hhash : tok.kind = (scanHash t).kind := hkind
    unfold scanHash at hhash
    dsimp only at hhash
    split at hhash
    · exact not_step_fault hhash hs
    · refine not_step_decoration ?_ hlast hs
      rw [hhash]
      split
      · exact .inl rfl
      · exact .inr rfl

/-- A `%` behind an operand, with nothing but white space behind it, lacks an operand. -/
theorem not_makes_percent (hdue : s.operandDue = false) (hw : Text.Spaces w) : ¬Makes s {} ('%' :: w) e := by
  intro h
  have hscan : scan {} '%' w = ⟨.operator, 0⟩ := by
    show scanPercent {} w = _
    rw [scanPercent, Marker.ofText?_eq_none (hw.stops rfl)]
    rfl
  obtain ⟨s', tok, hkind, -, hs, hrest⟩ := h.token rfl
  rw [hscan] at hkind hrest
  have hlast := step_last hs
  rw [step_read (by simp [isDress, hkind]) (by simp [hkind])] at hs
  unfold read at hs
  rw [hkind] at hs
  have hdue' := operate_binary (by exact hdue) hs
  have hconclude : conclude s' = .ok e := by
    have hrest' : Makes s' ⟨true, false⟩ (w ++ []) e := by
      rw [List.append_nil]
      exact hrest
    rcases hrest'.spaces hw (by simpa [follow, hkind] using hlast) rfl with hend | hend <;> exact hend.conclude
  unfold conclude at hconclude
  rw [if_pos hdue'] at hconclude
  split at hconclude <;> cases hconclude

/-- A number is followed by what makes the expression of it. -/
theorem Makes.number {v : Float} {base : Nat} {style : Style} {n : Nat} (hc : Byte.isBlank c = false)
    (hscan : scan before c t = ⟨.number v base style, n⟩) (h : Makes s before (c :: t) e) : s.operandDue = true ∧
      ∃ p, Makes (pushOperand { s with reached := p } (.number v base) .other) {} (t.drop n) e := by
  obtain ⟨s', tok, hkind, -, hs, hrest⟩ := h.token hc
  rw [hscan] at hkind hrest
  obtain ⟨hdue, rfl⟩ := step_number hkind hs
  exact ⟨hdue, _, hrest⟩

/-- Where the token of a literal ends early, what follows makes no expression. -/
theorem not_makes_of_breaks (hc : Byte.isBlank c = false) (h : Breaks (scan before c t) t) : ¬Makes s before (c :: t) e := by
  intro hmakes
  obtain ⟨s', tok, hkind, -, hs, hrest⟩ := hmakes.token hc
  rcases h with ⟨cause, hfault⟩ | ⟨⟨v, base, style, hnumber⟩, d, hd, htouches⟩
  · exact not_step_fault (hkind.trans hfault) hs
  · obtain ⟨u, hu⟩ := List.head?_eq_some_iff.mp hd
    obtain ⟨-, rfl⟩ := step_number (hkind.trans hnumber) hs
    rw [hu] at hrest
    exact not_makes_touching rfl rfl htouches hrest

/-- A `-` where an operand is due waits for it. -/
theorem Makes.minus (hdue : s.operandDue = true) (hlast : s.last = .other) (h : Makes s before ('-' :: t) e) :
    ∃ p q, Makes { s with pending := .prefixOp .negate p :: s.pending, last := .other, reached := q } ⟨true, false⟩ t e := by
  obtain ⟨s', tok, hkind, hlexeme, hs, hrest⟩ := h.token rfl
  have hscan : scan before '-' t = scanOperator ('-' :: t) := rfl
  rw [hscan] at hkind hlexeme hrest
  unfold scanOperator at hkind hlexeme hrest
  cases hmarker : Marker.ofText? ('-' :: t) with
  | some m =>
    rw [hmarker] at hkind
    exact absurd hs (not_step_decoration (.inl (by rw [hkind]; rfl)) hlast)
  | none =>
    have hsingle : doubleOperators.contains (('-' :: t).take 2) = false := by
      rw [List.take_succ_cons]
      simp [doubleOperators]
    rw [hmarker] at hkind hlexeme hrest
    simp only [hsingle, Bool.false_eq_true, if_false] at hkind hlexeme hrest
    have hop : PrefixOp.ofSymbol? tok.lexeme = some .negate := by
      rw [hlexeme]
      rfl
    rw [step_prefixOp hkind hop hdue] at hs
    obtain rfl := Except.ok.inj hs
    exact ⟨_, _, hrest⟩

end Makes

end Parser
end Worksheet
