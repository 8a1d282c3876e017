import Worksheet.Proofs.Expr.Grammar

/-! What the parser accepts. `Open` says which tokens a stack of operands, a stack of operators and the open
    calls stand for while an operand is due: every operator that waits has its left operand below it, and the
    operand that it still lacks has to be of level `floor`. Completing operators keeps that. It fails in one
    place only: a parenthesis that closes a call right behind an operator. -/

namespace Worksheet
namespace Grammar
open Worksheet.Parser

/-! ### Closing a call -/

section CloseCall
variable {s : State} {t : Token} {es : List Expr} {ps : List Pending} {fs : List Parser.Frame} {f : Text}

theorem closeCall_noArguments (hfs : s.frames = ⟨f, 0⟩ :: fs) : closeCall s t true es ps =
    .ok { s with operands := .call f [] :: es, pending := ps, frames := fs, operandDue := false } := by
  simp [closeCall, hfs]

theorem closeCall_arguments {args : List Expr} {e : Expr} (hfs : s.frames = ⟨f, args.length⟩ :: fs) :
    closeCall s t false (e :: (args.reverse ++ es)) ps =
      .ok { s with operands := .call f (args ++ [e]) :: es, pending := ps, frames := fs, operandDue := false } := by
  have hlen : ¬args.length + es.length < args.length := by omega
  simp [closeCall, hfs, hlen]

theorem closeCall_missing {n : Nat} (hfs : s.frames = ⟨f, n⟩ :: fs) (hn : 0 < n) :
    closeCall s t true es ps = fail (.missingArgument [')']) (placeOf t) := by
  simp [closeCall, hfs, hn]

end CloseCall

/-! ### Stacks that wait for an operand -/

/-- The least level of an operand that the newest pending operator can take. -/
def floor : List Pending → Nat
  | .prefixOp _ _ :: _ => PrefixOp.level
  | .binaryOp op _ :: _ => op.rightLevel
  | _ => 1

/-- The arguments of an open call that a separator has closed. -/
inductive ClosedArguments : List Expr → List Token → Prop
  | nil : ClosedArguments [] []
  | separated {es us s} (h : Arguments es us) (hs : IsSeparator s) : ClosedArguments es (us ++ [s])

theorem ClosedArguments.last {es us e ts} (h : ClosedArguments es us) (he : Derives 1 e ts) :
    Arguments (es ++ [e]) (us ++ ts) := by
  cases h with
  | nil => exact .first he
  | separated h hs => simpa using h.more hs he

/-- Operands, pending operators and open calls that the tokens `ts` leave behind when an operand is due. -/
inductive Open : List Expr → List Pending → List Parser.Frame → List Token → Prop
  | start : Open [] [] [] []
  | prefixOp {es ps fs ts t op p} (h : Open es ps fs ts) (ht : t.kind = .operator)
    (hop : PrefixOp.ofSymbol? t.lexeme = some op) : Open es (.prefixOp op p :: ps) fs (ts ++ [t])
  | binaryOp {es ps fs ts us t op p l} (h : Open es ps fs ts) (hfloor : floor ps ≤ op.level)
    (hl : Derives op.leftLevel l us) (ht : t.kind = .operator) (hop : BinaryOp.ofSymbol? t.lexeme = some op) :
    Open (l :: es) (.binaryOp op p :: ps) fs (ts ++ (us ++ [t]))
  | group {es ps fs ts o p} (h : Open es ps fs ts) (ho : o.kind = .openParen) :
    Open es (.group p :: ps) fs (ts ++ [o])
  | call {es ps fs ts us f o p args} (h : Open es ps fs ts) (hf : f.kind = .name) (ho : o.kind = .openParen)
    (hargs : ClosedArguments args us) :
    Open (args.reverse ++ es) (.call f.lexeme p :: ps) (⟨f.lexeme, args.length⟩ :: fs) (ts ++ (f :: o :: us))

/-- The newest pending thing is no operator. -/
def AtParen (ps : List Pending) : Prop := ∀ p ∈ ps.head?, (∃ q, p = .group q) ∨ ∃ f q, p = .call f q

theorem floor_le (ps : List Pending) : floor ps ≤ PrefixOp.level := by
  unfold floor
  split
  · exact Nat.le_refl _
  · exact Nat.le_trans (BinaryOp.rightLevel_le _) (by decide)
  · decide

theorem AtParen.unwind {ps : List Pending} (h : AtParen ps) (es : List Expr) : unwind es ps = .ok (es, ps) := by
  cases ps with
  | nil => rfl
  | cons p ps =>
    rcases h p rfl with ⟨q, rfl⟩ | ⟨f, q, rfl⟩ <;> rfl

theorem yields_eq (next : BinaryOp) (n : Nat) : yields next n = decide (next.leftLevel ≤ n) := by
  unfold yields BinaryOp.leftLevel
  split <;> rfl

/-- Completing the operators above a parenthesis makes one operand of the waiting ones and the new one. -/
theorem Open.unwind {es ps fs ts} (h : Open es ps fs ts) {n e us} (he : Derives n e us) (hn : floor ps ≤ n) :
    ∃ e' es' qs ts' us', Parser.unwind (e :: es) ps = .ok (e' :: es', qs) ∧ AtParen qs ∧ Open es' qs fs ts' ∧
      Derives 1 e' us' ∧ ts' ++ us' = ts ++ us := by
  -- The operators are completed from the top; each step hands a larger operand to the stack below it.
  induction h generalizing n e us with
  | start => exact ⟨e, [], [], [], us, rfl, by simp [AtParen], .start, he.weaken hn, rfl⟩
  | @prefixOp es ps fs ts t op p h ht hop ih =>
    obtain ⟨e', es', qs, ts', us', hw, hq, ho, hd, hcat⟩ := ih (.unary ht hop (he.weaken hn)) (floor_le ps)
    exact ⟨e', es', qs, ts', us', hw, hq, ho, hd, by simp [hcat]⟩
  | @binaryOp es ps fs ts vs t op p l h hfloor hl ht hop ih =>
    obtain ⟨e', es', qs, ts', us', hw, hq, ho, hd, hcat⟩ := ih (.binary hl ht hop (he.weaken hn)) hfloor
    exact ⟨e', es', qs, ts', us', hw, hq, ho, hd, by simp [hcat]⟩
  | @group es ps fs ts o p h ho =>
    exact ⟨e, es, .group p :: ps, ts ++ [o], us, rfl, by simp [AtParen], h.group ho, he.weaken hn, rfl⟩
  | call h hf ho hargs => exact ⟨e, _, _, _, us, rfl, by simp [AtParen], h.call hf ho hargs, he.weaken hn, rfl⟩

/-- Making way for `next` leaves a left operand for it on a stack that takes what `next` makes. -/
theorem Open.reduce {es ps fs ts} (h : Open es ps fs ts) {n e us} {next : BinaryOp} (he : Derives n e us)
    (hn : floor ps ≤ n) (hnext : next.leftLevel ≤ n) (hpos : 0 < next.level) :
    ∃ e' es' qs ts' us', Parser.reduce next (e :: es) ps = .ok (e' :: es', qs) ∧ floor qs ≤ next.level ∧
      Open es' qs fs ts' ∧ Derives next.leftLevel e' us' ∧ ts' ++ us' = ts ++ us := by
  induction h generalizing n e us with
  | start => exact ⟨e, [], [], [], us, rfl, hpos, .start, he.weaken hnext, rfl⟩
  | @prefixOp es ps fs ts t op p h ht hop ih =>
    obtain ⟨e', es', qs, ts', us', hr, hq, ho, hd, hcat⟩ :=
      ih (.unary ht hop (he.weaken hn)) (floor_le ps) next.leftLevel_le
    refine ⟨e', es', qs, ts', us', ?_, hq, ho, hd, by simp [hcat]⟩
    simpa [Parser.reduce, yields_eq, next.leftLevel_le, applyPrefix] using hr
  | @binaryOp es ps fs ts vs t op p l h hfloor hl ht hop ih =>
    by_cases hy : next.leftLevel ≤ op.level
    · obtain ⟨e', es', qs, ts', us', hr, hq, ho, hd, hcat⟩ := ih (.binary hl ht hop (he.weaken hn)) hfloor hy
      refine ⟨e', es', qs, ts', us', ?_, hq, ho, hd, by simp [hcat]⟩
      simpa [Parser.reduce, yields_eq, hy, applyBinary] using hr
    · refine ⟨e, l :: es, .binaryOp op p :: ps, ts ++ (vs ++ [t]), us, ?_, ?_, h.binaryOp hfloor hl ht hop, he.weaken hnext, rfl⟩
      · simp [Parser.reduce, yields_eq, hy]
      · exact BinaryOp.rightLevel_le_iff.mpr (Nat.lt_of_not_le hy)
  | @group es ps fs ts o p h ho =>
    exact ⟨e, es, .group p :: ps, ts ++ [o], us, rfl, hpos, h.group ho, he.weaken hnext, rfl⟩
  | call h hf ho hargs => exact ⟨e, _, _, _, us, rfl, hpos, h.call hf ho hargs, he.weaken hnext, rfl⟩

/-! ### The state of the parser -/

/-- The parser has read the bare tokens `ts`: an operand is due, or one of them has just been read. The last
    token was a name only if that operand is the name. -/
inductive Reads : State → List Token → Prop
  | due {s : State} {ts : List Token} (hdue : s.operandDue = true) (hlast : s.last = .other)
    (h : Open s.operands s.pending s.frames ts) : Reads s ts
  | operand {s : State} {ts us : List Token} {e : Expr} {es : List Expr} (hdue : s.operandDue = false)
    (hes : s.operands = e :: es) (h : Open es s.pending s.frames ts) (he : Derives primary e us)
    (hlast : s.last = .name → ∃ t, us = [t] ∧ t.kind = .name ∧ e = .var t.lexeme) : Reads s (ts ++ us)

/-- A token of which an operator is a part ends the tokens that wait for its operand. -/
theorem Open.ends_in_operator {es ps fs ts} (h : Open es ps fs ts) (hp : ¬AtParen ps) :
    ∃ us t, ts = us ++ [t] ∧ t.kind = .operator := by
  cases h with
  | start => exact absurd (by simp [AtParen]) hp
  | prefixOp _ ht _ => exact ⟨_, _, rfl, ht⟩
  | binaryOp _ _ _ ht _ => exact ⟨_, _, (List.append_assoc _ _ _).symm, ht⟩
  | group => exact absurd (by simp [AtParen]) hp
  | call => exact absurd (by simp [AtParen]) hp

/-- Before a parenthesis that no operator stands before, an operand is due only behind another parenthesis or
    a separator. -/
theorem Open.atParen_of_operatorsClosed {es ps fs ts c} {rest : List Token} (h : Open es ps fs ts)
    (hc : c.kind = .closeParen) (hclosed : OperatorsClosed (ts ++ c :: rest)) : AtParen ps := by
  by_contra hp
  obtain ⟨us, t, rfl, ht⟩ := h.ends_in_operator hp
  rw [List.append_assoc, List.singleton_append] at hclosed
  exact (List.isChain_append_cons_cons.mp hclosed).2.1 ⟨ht, hc⟩

theorem Arguments.length_pos {es : List Expr} {ts : List Token} (h : Arguments es ts) : 0 < es.length := by
  cases h <;> simp

/-- What a stack looks like whose newest pending thing is no operator. -/
theorem Open.cases_atParen {es ps fs ts} (h : Open es ps fs ts) (hp : AtParen ps) :
    ps = [] ∧ es = [] ∧ ts = [] ∨
    (∃ q ps' ts' o, ps = .group q :: ps' ∧ ts = ts' ++ [o] ∧ o.kind = .openParen ∧ Open es ps' fs ts') ∨
    ∃ q ps' fs' ts' us f o args es', ps = .call f.lexeme q :: ps' ∧ fs = ⟨f.lexeme, args.length⟩ :: fs' ∧
      ts = ts' ++ (f :: o :: us) ∧ es = args.reverse ++ es' ∧ f.kind = .name ∧ o.kind = .openParen ∧
      ClosedArguments args us ∧ Open es' ps' fs' ts' := by
  cases h with
  | start => exact Or.inl ⟨rfl, rfl, rfl⟩
  | prefixOp => rcases hp _ rfl with ⟨q, hq⟩ | ⟨f, q, hq⟩ <;> cases hq
  | binaryOp => rcases hp _ rfl with ⟨q, hq⟩ | ⟨f, q, hq⟩ <;> cases hq
  | group h ho => exact Or.inr (Or.inl ⟨_, _, _, _, rfl, rfl, ho, h⟩)
  | call h hf ho hargs => exact Or.inr (Or.inr ⟨_, _, _, _, _, _, _, _, _, rfl, rfl, rfl, rfl, hf, ho, hargs, h⟩)

section Steps
variable {s s' : State} {ts rest : List Token} {t : Token}

/-- A token that is no dress goes to `read`, unless it opens a call. -/
theorem step_eq_read (hd : isDress s.last t = false) (hcall : ¬(t.kind = .openParen ∧ s.last = .name)) :
    step s t = read { s with last := .other, reached := placeBehind t } t := by
  unfold step
  split <;> simp_all [isDress]

/-- A token that the grammar does not see changes nothing but what stands before the next one. -/
theorem step_dress (hd : isDress s.last t = true) : step s t = .ok { s with last := follow s.last t } := by
  unfold step isDress at *
  split <;> simp_all [follow]

theorem closeCall_last {noOperand : Bool} {es : List Expr} {ps : List Pending}
    (hs : closeCall s t noOperand es ps = .ok s') : s'.last = s.last := by
  unfold closeCall fail at hs
  grind

theorem close_last (hs : close s t = .ok s') : s'.last = s.last := by
  unfold Parser.close fail at hs
  grind [closeCall_last]

theorem separate_last (hs : separate s t = .ok s') : s'.last = s.last := by
  unfold Parser.separate fail at hs
  grind

theorem operate_last (hs : operate s t = .ok s') : s'.last = s.last := by
  unfold Parser.operate fail at hs
  grind

theorem read_last (hlast : s.last = .other) (hs : read s t = .ok s') : s'.last = follow .other t := by
  unfold Parser.read at hs
  split at hs <;> rename_i hk <;> simp only [follow, hk]
  · cases hs
  · split at hs <;> cases hs
    rfl
  · split at hs <;> cases hs
    rfl
  · split at hs <;> cases hs
    exact hlast
  · exact (separate_last hs).trans hlast
  · exact (separate_last hs).trans hlast
  · exact (close_last hs).trans hlast
  · exact (operate_last hs).trans hlast
  · cases hs

/-- What a token is for the reading of the next one does not depend on the stacks. -/
theorem step_last (hs : step s t = .ok s') : s'.last = follow s.last t := by
  cases hd : isDress s.last t
  · by_cases hcall : t.kind = .openParen ∧ s.last = .name
    · have hopen : openCall s t = .ok s' := by simpa [step, hcall.1, hcall.2] using hs
      unfold openCall at hopen
      split at hopen <;> cases hopen
      simp [follow, hcall.1]
    · rw [step_eq_read hd hcall] at hs
      exact (read_last rfl hs).trans (follow_of_not_isDress hd).symm
  · rw [step_dress hd] at hs
    cases hs
    rfl

/-- The last token and the place behind it count for nothing more, unless they are the name of a call. -/
theorem Reads.forget {l : Last} {p : Place} (h : Reads s ts) (hl : l ≠ .name) (hdue : s.operandDue = true → l = .other) :
    Reads { s with last := l, reached := p } ts := by
  cases h with
  | due hd _ ho => exact .due hd (hdue hd) ho
  | operand hd hes ho he _ => exact .operand hd hes ho he fun h => absurd h hl

/-- An operand by itself. -/
theorem Reads.push {e : Expr} {l : Last} (h : Reads s ts) (hdue : s.operandDue = true) (he : Derives primary e [t])
    (hl : l = .name → t.kind = .name ∧ e = .var t.lexeme) : Reads (pushOperand s e l) (ts ++ [t]) := by
  cases h with
  | due _ _ ho => exact .operand rfl rfl ho he fun h => ⟨t, rfl, hl h⟩
  | operand hd => rw [hd] at hdue; cases hdue

theorem Reads.operate (h : Reads s ts) (hlast : s.last = .other) (ht : t.kind = .operator)
    (hs : operate s t = .ok s') : Reads s' (ts ++ [t]) := by
  unfold Parser.operate at hs
  cases h with
  | due hd _ ho =>
    rw [if_pos hd] at hs
    split at hs
    · rename_i op hop
      cases hs
      exact .due hd hlast (ho.prefixOp ht hop)
    · cases hs
  | @operand _ us e es hd hes ho he _ =>
    rw [if_neg (by simp [hd])] at hs
    split at hs
    · cases hs
    · rename_i op hop
      have hpos := BinaryOp.level_pos_of_ofSymbol? hop
      obtain ⟨e', es', qs, ts', us', hr, hq, ho', hd', hcat⟩ := ho.reduce he
        (Nat.le_trans (floor_le _) (by decide)) (Nat.le_trans op.leftLevel_le (by decide)) hpos
      rw [hes, hr] at hs
      cases hs
      refine .due rfl hlast ?_
      rw [← hcat, List.append_assoc]
      exact ho'.binaryOp hq hd' ht hop

theorem Reads.separate (h : Reads s ts) (hlast : s.last = .other) (ht : IsSeparator t)
    (hs : separate s t = .ok s') : Reads s' (ts ++ [t]) := by
  unfold Parser.separate at hs
  cases h with
  | due hd => rw [if_pos hd] at hs; cases hs
  | @operand _ us e es hd hes ho he _ =>
    obtain ⟨e', es', qs, ts', us', hw, hq, ho', hd', hcat⟩ := ho.unwind he (Nat.le_trans (floor_le _) (by decide))
    rw [if_neg (by simp [hd]), hes, hw] at hs
    rw [← hcat]
    rcases ho'.cases_atParen hq with ⟨rfl, -⟩ | ⟨q, ps, ts', o, rfl, -⟩ |
        ⟨q, ps, fs, ts', vs, f, o, args, es', rfl, hfs, rfl, rfl, hf, hopen, hargs, ho''⟩
    · cases hs
    · cases hs
    · simp only [hfs] at hs
      cases hs
      refine .due rfl hlast ?_
      have hnew := ho''.call (p := q) hf hopen (.separated (hargs.last hd') ht)
      simpa using hnew

theorem Reads.close (h : Reads s ts) (hlast : s.last = .other) (ht : t.kind = .closeParen)
    (hclosed : OperatorsClosed (ts ++ t :: rest)) (hs : close s t = .ok s') : Reads s' (ts ++ [t]) := by
  unfold Parser.close at hs
  cases h with
  | due hd _ ho =>
    have hp := ho.atParen_of_operatorsClosed ht hclosed
    rw [hp.unwind] at hs
    rcases ho.cases_atParen hp with ⟨hps, -⟩ | ⟨q, ps, ts', o, hps, -⟩ |
        ⟨q, ps, fs, ts', vs, f, o, args, es', hps, hfs, rfl, hes, hf, hopen, hargs, ho'⟩ <;>
      simp only [hps] at hs
    · cases hs
    · rw [if_pos hd] at hs
      cases hs
    · rw [hd] at hs
      cases hargs with
      | nil =>
        rw [closeCall_noArguments hfs] at hs
        cases hs
        rw [List.append_assoc]
        exact .operand rfl rfl (by simpa [hes] using ho') (.noArguments hf hopen ht) (by simp [hlast])
      | separated hargs _ =>
        rw [closeCall_missing hfs hargs.length_pos] at hs
        cases hs
  | @operand _ us e es hd hes ho he _ =>
    obtain ⟨e', es', qs, ts', us', hw, hq, ho', hd', hcat⟩ := ho.unwind he (Nat.le_trans (floor_le _) (by decide))
    rw [hes, hw] at hs
    rw [← hcat]
    rcases ho'.cases_atParen hq with ⟨rfl, -⟩ | ⟨q, ps, ts', o, rfl, rfl, hopen, ho''⟩ |
        ⟨q, ps, fs, ts', vs, f, o, args, es', rfl, hfs, rfl, rfl, hf, hopen, hargs, ho''⟩ <;>
      simp only [] at hs
    · cases hs
    · rw [if_neg (by simp [hd])] at hs
      cases hs
      have hgroup : ts' ++ [o] ++ us' ++ [t] = ts' ++ (o :: us' ++ [t]) := by simp
      rw [hgroup]
      exact .operand rfl rfl ho'' (.group hopen hd' ht) (by simp [hlast])
    · rw [hd, closeCall_arguments hfs] at hs
      cases hs
      have hcall : ts' ++ (f :: o :: vs) ++ us' ++ [t] = ts' ++ (f :: o :: (vs ++ us') ++ [t]) := by simp
      rw [hcall]
      exact .operand rfl rfl ho'' (.call hf hopen (hargs.last hd') ht) (by simp [hlast])

/-- A name right before a parenthesis becomes a call. -/
theorem Reads.openCall (h : Reads s ts) (hlast : s.last = .name) (ht : t.kind = .openParen)
    (hs : openCall s t = .ok s') : Reads s' (ts ++ [t]) := by
  unfold Parser.openCall at hs
  cases h with
  | due _ h => rw [h] at hlast; cases hlast
  | operand hd hes ho he hname =>
    obtain ⟨f, rfl, hf, rfl⟩ := hname hlast
    simp only [hes] at hs
    cases hs
    refine .due rfl rfl ?_
    rw [List.append_assoc]
    exact ho.call hf ht .nil

theorem Reads.read (h : Reads s ts) (hlast : s.last = .other) (hclosed : OperatorsClosed (ts ++ t :: rest))
    (hs : read s t = .ok s') : Reads s' (ts ++ [t]) := by
  unfold Parser.read at hs
  split at hs <;> rename_i hk
  · cases hs
  · split at hs
    · rename_i hdue
      cases hs
      exact h.push hdue (.number hk) nofun
    · cases hs
  · split at hs
    · rename_i hdue
      cases hs
      exact h.push hdue (.var hk) fun _ => ⟨hk, rfl⟩
    · cases hs
  · split at hs
    · rename_i hdue
      cases hs
      cases h with
      | due _ _ ho => exact .due hdue hlast (ho.group hk)
      | operand hd => rw [hd] at hdue; cases hdue
    · cases hs
  · exact h.separate hlast (Or.inl hk) hs
  · exact h.separate hlast (Or.inr hk) hs
  · exact h.close hlast hk hclosed hs
  · exact h.operate hlast hk hs
  · cases hs

theorem Reads.dress (h : Reads s ts) (hd : isDress s.last t = true) : Reads { s with last := follow s.last t } ts := by
  refine h.forget (p := s.reached) ?_ fun hdue => ?_
  · exact follow_ne_name_of_isDress hd
  · have hlast : s.last = .other := by
      cases h with
      | due _ hlast => exact hlast
      | operand hd => rw [hd] at hdue; cases hdue
    rw [hlast] at hd ⊢
    exact follow_other_of_isDress hd

/-- A token that the grammar sees. -/
theorem Reads.token (h : Reads s ts) (hd : isDress s.last t = false) (hclosed : OperatorsClosed (ts ++ t :: rest))
    (hs : step s t = .ok s') : Reads s' (ts ++ [t]) := by
  by_cases hcall : t.kind = .openParen ∧ s.last = .name
  · have hopen : Parser.openCall s t = .ok s' := by simpa [step, hcall.1, hcall.2] using hs
    exact h.openCall hcall.2 hcall.1 hopen
  · rw [step_eq_read hd hcall] at hs
    exact (h.forget (p := placeBehind t) (by simp) fun _ => rfl).read rfl hclosed hs

/-- All tokens before the end of the text, from the left. -/
theorem Reads.run (h : Reads s ts) {rs : List Token} (hclosed : OperatorsClosed (ts ++ bare s.last rs))
    (hs : rs.foldlM step s = .ok s') : Reads s' (ts ++ bare s.last rs) := by
  induction rs generalizing s ts with
  | nil =>
    cases hs
    simpa [bare] using h
  | cons t rs ih =>
    rw [List.foldlM_cons] at hs
    cases hd : isDress s.last t
    · cases hstep : step s t with
      | error e => rw [hstep] at hs; cases hs
      | ok s₁ =>
        rw [hstep] at hs
        simp only [bare, hd, Bool.false_eq_true, if_false] at hclosed ⊢
        have h₁ := h.token hd hclosed hstep
        have hlast := step_last hstep
        have hrest : ts ++ t :: bare (follow s.last t) rs = ts ++ [t] ++ bare s₁.last rs := by simp [hlast]
        rw [hrest] at hclosed ⊢
        exact ih h₁ hclosed hs
    · rw [step_dress hd] at hs
      simp only [bare, hd, if_true] at hclosed ⊢
      exact ih (h.dress hd) hclosed hs

/-- The expression that the parser ends with is the one of all tokens. -/
theorem Reads.conclude {e : Expr} (h : Reads s ts) (hs : conclude s = .ok e) : Derives 1 e ts := by
  unfold Parser.conclude at hs
  cases h with
  | due hd =>
    rw [if_pos hd] at hs
    split at hs <;> cases hs
  | @operand _ us e' es hd hes ho he _ =>
    obtain ⟨e', es', qs, ts', us', hw, hq, ho', hd', hcat⟩ := ho.unwind he (Nat.le_trans (floor_le _) (by decide))
    rw [if_neg (by simp [hd]), complete, hes, hw] at hs
    rcases ho'.cases_atParen hq with ⟨rfl, rfl, rfl⟩ | ⟨q, ps, ts', o, rfl, -⟩ |
        ⟨q, ps, fs, ts', vs, f, o, args, es', rfl, -⟩
    · cases hs
      simpa [← hcat] using hd'
    · cases hs
    · cases hs

end Steps

/-! ### Derivable tokens -/

/-- No operator stands right before a closing parenthesis, in the tokens or where more tokens are put beside
    them. -/
structure Shut (ts : List Token) : Prop where
  closed : OperatorsClosed ts
  ne_nil : ts ≠ []
  head : ∀ t ∈ ts.head?, t.kind ≠ .closeParen
  last : ∀ t ∈ ts.getLast?, t.kind ≠ .operator

theorem Shut.singleton {t : Token} (hclose : t.kind ≠ .closeParen) (hop : t.kind ≠ .operator) : Shut [t] :=
  ⟨List.isChain_singleton t, by simp, by simpa using hclose, by simpa using hop⟩

theorem Shut.cons {t : Token} {ts : List Token} (ht : t.kind ≠ .closeParen) (h : Shut ts) : Shut (t :: ts) where
  closed := List.isChain_cons.mpr ⟨fun u hu hk => h.head u hu hk.2, h.closed⟩
  ne_nil := by simp
  head := by simpa using ht
  last := by
    rw [List.getLast?_cons_of_ne_nil h.ne_nil]
    exact h.last

theorem Shut.append {ts us : List Token} (h : Shut ts) (h' : Shut us) : Shut (ts ++ us) where
  closed := List.isChain_append.mpr ⟨h.closed, h'.closed, fun t ht _ _ hk => h.last t ht hk.1⟩
  ne_nil := by simp [h.ne_nil]
  head := by
    rw [List.head?_append_of_ne_nil _ h.ne_nil]
    exact h.head
  last := by
    rw [List.getLast?_append_of_ne_nil _ h'.ne_nil]
    exact h'.last

theorem Shut.concat {t : Token} {ts : List Token} (h : Shut ts) (ht : t.kind = .closeParen) : Shut (ts ++ [t]) where
  closed := List.isChain_append.mpr ⟨h.closed, List.isChain_singleton t, fun u hu _ _ hk => h.last u hu hk.1⟩
  ne_nil := by simp
  head := by
    rw [List.head?_append_of_ne_nil _ h.ne_nil]
    exact h.head
  last := by simp [ht]

theorem Derives.operatorsClosed {n : Nat} {e : Expr} {ts : List Token} (h : Derives n e ts) : OperatorsClosed ts := by
  have hshut : Shut ts := @Derives.rec (fun _ _ ts _ => Shut ts) (fun _ ts _ => Shut ts)
    (fun ht => .singleton (by simp [ht]) (by simp [ht])) (fun ht => .singleton (by simp [ht]) (by simp [ht]))
    (fun ho _ hc h => (h.cons (by simp [ho])).concat hc)
    (fun hf ho hc => ((Shut.singleton (by simp [ho]) (by simp [ho])).cons (by simp [hf])).concat hc)
    (fun hf ho _ hc h => ((h.cons (by simp [ho])).cons (by simp [hf])).concat hc)
    (fun ht _ _ h => h.cons (by simp [ht])) (fun _ ht _ _ hl hr => hl.append (hr.cons (by simp [ht])))
    (fun _ _ h => h) (fun _ h => h)
    (fun _ hs _ hes h => by rcases hs with hs | hs <;> exact hes.append (h.cons (by simp [hs])))
    n e ts h
  exact hshut.closed

/-- What the parser makes of tokens without an operator right before a closing parenthesis is derivable. -/
theorem derives_of_parseTokens {ts : List Token} {e : Expr} (hclosed : OperatorsClosed (seen ts))
    (h : parseTokens ts = .ok e) : Derives 1 e (seen ts) := by
  unfold parseTokens at h
  split at h
  · rename_i s hs
    have hread : Reads s ([] ++ seen ts) := Reads.run (.due rfl rfl .start) hclosed hs
    exact hread.conclude h
  · cases h

end Grammar
end Worksheet
