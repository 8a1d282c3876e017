import Mathlib.Data.List.TakeWhile
import Worksheet.Proofs.Expr.ParseSound

/-! Every token text of an expression is read as that expression. `Took s s' n e` says that the parser has read
    `e` on the way from `s` to `s'`: operators of level `n` may still wait in `s'`, but whatever completes
    them finds `e` on the stacks of `s`. By induction over the derivation this holds of every expression, and
    comments, line ends and suffixes change nothing. -/

namespace Worksheet
namespace Grammar
open Worksheet.Parser

/-! ### Bare tokens -/

/-- In `s'` the stacks are those of `s` with `e` on top, as far as a closing parenthesis, a separator, the end
    and operators with a left level of at most `n` can tell. -/
structure Took (s s' : State) (n : Nat) (e : Expr) : Prop where
  operandDue : s'.operandDue = false
  frames : s'.frames = s.frames
  unwind : unwind s'.operands s'.pending = unwind (e :: s.operands) s.pending
  reduce : ∀ next : BinaryOp, next.leftLevel ≤ n →
    reduce next s'.operands s'.pending = reduce next (e :: s.operands) s.pending

/-- An operand is due, and no name stands right before it. -/
structure Ready (s : State) (n : Nat) : Prop where
  operandDue : s.operandDue = true
  last : s.last = .other
  floor : floor s.pending ≤ n

/-- From every state that is ready for it the tokens `ts` take the parser past `e`. -/
def Runs (n : Nat) (e : Expr) (ts : List Token) : Prop :=
  ∀ s, Ready s n → ∃ s', ts.foldlM step s = .ok s' ∧ Took s s' n e

/-- From an open call the tokens `ts` take the parser past the arguments `es`, the last one being still open. -/
def ArgumentsRun (es : List Expr) (ts : List Token) : Prop :=
  ∀ s f p ps k fs, s.operandDue = true → s.last = .other → s.pending = .call f p :: ps → s.frames = ⟨f, k⟩ :: fs →
    ∃ s', ts.foldlM step s = .ok s' ∧ s'.operandDue = false ∧ s'.frames = ⟨f, k + (es.length - 1)⟩ :: fs ∧
      unwind s'.operands s'.pending = .ok (es.reverse ++ s.operands, .call f p :: ps)

theorem foldlM_append_ok {ts us : List Token} {s s₁ : State} (h : ts.foldlM step s = .ok s₁) :
    (ts ++ us).foldlM step s = us.foldlM step s₁ := by
  rw [List.foldlM_append, h]
  rfl

theorem foldlM_cons_ok {ts : List Token} {s s₁ : State} {t : Token} (h : step s t = .ok s₁) :
    (t :: ts).foldlM step s = ts.foldlM step s₁ := by
  rw [List.foldlM_cons, h]
  rfl

theorem foldlM_cons_eq_ok {ts : List Token} {s r : State} {t : Token} (h : (t :: ts).foldlM step s = .ok r) :
    ∃ s₁, step s t = .ok s₁ ∧ ts.foldlM step s₁ = .ok r := by
  rw [List.foldlM_cons] at h
  cases hs : step s t with
  | error e => rw [hs] at h; cases h
  | ok s₁ => rw [hs] at h; exact ⟨s₁, rfl, h⟩

theorem foldlM_concat_ok {ts : List Token} {s s₁ s₂ : State} {t : Token} (h : ts.foldlM step s = .ok s₁)
    (ht : step s₁ t = .ok s₂) : (ts ++ [t]).foldlM step s = .ok s₂ := by
  rw [foldlM_append_ok h, foldlM_cons_ok ht]
  rfl

theorem Runs.weaken {n m : Nat} {e : Expr} {ts : List Token} (hle : n ≤ m) (h : Runs m e ts) : Runs n e ts := by
  intro s hs
  obtain ⟨s', hrun, htook⟩ := h s ⟨hs.operandDue, hs.last, Nat.le_trans hs.floor hle⟩
  exact ⟨s', hrun, htook.operandDue, htook.frames, htook.unwind,
    fun next hnext => htook.reduce next (Nat.le_trans hnext hle)⟩

/-- A token that is read as it stands. -/
theorem step_read {s : State} {t : Token} (hd : ∀ last, isDress last t = false) (hopen : t.kind ≠ .openParen) :
    step s t = read { s with last := .other, reached := placeBehind t } t :=
  step_eq_read (hd _) fun h => hopen h.1

theorem step_close {s : State} {t : Token} (ht : t.kind = .closeParen) :
    step s t = close { s with last := .other, reached := placeBehind t } t := by
  simp [step_read, isDress, ht, Parser.read]

theorem reduce_eq_of_floor_le {next : BinaryOp} {ps : List Pending} (h : floor ps ≤ next.level) (es : List Expr) :
    reduce next es ps = .ok (es, ps) := by
  -- No operator that waits is of the level at which `next` would complete it.
  unfold reduce
  split
  · exact absurd h (Nat.not_le_of_lt next.level_lt)
  · have hno : ¬next.leftLevel ≤ _ := Nat.not_le_of_lt (BinaryOp.rightLevel_le_iff.mp h)
    rw [yields_eq, decide_eq_false hno]
    rfl
  · rfl

theorem step_openParen {s : State} {t : Token} (ht : t.kind = .openParen) (hdue : s.operandDue = true)
    (hlast : s.last = .other) : step s t =
      .ok { s with last := .other, reached := placeBehind t, pending := .group (placeOf t) :: s.pending } := by
  rw [step_eq_read (by simp [isDress, ht]) (by simp [hlast])]
  simp [Parser.read, ht, hdue]

theorem step_name {s : State} {t : Token} (ht : t.kind = .name) (hdue : s.operandDue = true) :
    step s t = .ok (pushOperand { s with last := .other, reached := placeBehind t } (.var t.lexeme) .name) := by
  simp [step_read, isDress, ht, Parser.read, hdue]

theorem step_prefixOp {s : State} {t : Token} {op : PrefixOp} (ht : t.kind = .operator)
    (hop : PrefixOp.ofSymbol? t.lexeme = some op) (hdue : s.operandDue = true) : step s t =
      .ok { s with last := .other, reached := placeBehind t, pending := .prefixOp op (placeOf t) :: s.pending } := by
  simp [step_read, isDress, ht, Parser.read, operate, hdue, hop]

theorem step_binaryOp {s : State} {t : Token} {op : BinaryOp} {es : List Expr} {ps : List Pending}
    (ht : t.kind = .operator) (hop : BinaryOp.ofSymbol? t.lexeme = some op) (hdue : s.operandDue = false)
    (hr : reduce op s.operands s.pending = .ok (es, ps)) : step s t = .ok
      { s with
        operands := es, pending := .binaryOp op (placeOf t) :: ps, operandDue := true, last := .other,
        reached := placeBehind t } := by
  simp [step_read, isDress, ht, Parser.read, operate, hdue, hop, hr]

/-! ### Operands -/

theorem runs_number {t : Token} {v : Float} {base : Nat} {style : Style} (ht : t.kind = .number v base style) :
    Runs primary (.number v base) [t] := by
  intro s hs
  have hstep : step s t = .ok (pushOperand { s with last := .other, reached := placeBehind t } (.number v base) .other) := by
    simp [step_read, isDress, ht, Parser.read, hs.operandDue]
  exact ⟨_, foldlM_cons_ok hstep, rfl, rfl, rfl, fun _ _ => rfl⟩

theorem runs_var {t : Token} (ht : t.kind = .name) : Runs primary (.var t.lexeme) [t] := by
  intro s hs
  exact ⟨_, foldlM_cons_ok (step_name ht hs.operandDue), rfl, rfl, rfl, fun _ _ => rfl⟩

theorem runs_group {e : Expr} {ts : List Token} {o c : Token} (ho : o.kind = .openParen) (h : Runs 1 e ts)
    (hc : c.kind = .closeParen) : Runs primary e (o :: ts ++ [c]) := by
  intro s hs
  obtain ⟨s₁, hrun, htook⟩ := h
    { s with last := .other, reached := placeBehind o, pending := .group (placeOf o) :: s.pending }
    ⟨hs.operandDue, rfl, Nat.le_refl 1⟩
  have hclose : step s₁ c = .ok
      { s₁ with
        operands := e :: s.operands, pending := s.pending, operandDue := false, last := .other,
        reached := placeBehind c } := by
    rw [step_close hc]
    simp [close, htook.unwind, htook.operandDue, Parser.unwind]
  have hall : (o :: ts ++ [c]).foldlM step s = .ok _ :=
    foldlM_concat_ok ((foldlM_cons_ok (step_openParen ho hs.operandDue hs.last)).trans hrun) hclose
  exact ⟨_, hall, rfl, htook.frames, rfl, fun _ _ => rfl⟩

/-- The state behind the open parenthesis of a call. -/
theorem foldlM_openCall {s : State} {f o : Token} (hf : f.kind = .name) (ho : o.kind = .openParen)
    (hdue : s.operandDue = true) : [f, o].foldlM step s = .ok
      { s with
        pending := .call f.lexeme (placeOf o) :: s.pending, frames := ⟨f.lexeme, 0⟩ :: s.frames, operandDue := true,
        last := .other, reached := placeBehind f } := by
  rw [foldlM_cons_ok (step_name hf hdue)]
  simp [step, ho, pushOperand, openCall]

theorem runs_noArguments {f o c : Token} (hf : f.kind = .name) (ho : o.kind = .openParen) (hc : c.kind = .closeParen) :
    Runs primary (.call f.lexeme []) [f, o, c] := by
  intro s hs
  have hopen := foldlM_openCall hf ho hs.operandDue
  have hclose := step_close (s := { s with
    pending := .call f.lexeme (placeOf o) :: s.pending, frames := ⟨f.lexeme, 0⟩ :: s.frames, operandDue := true,
    last := .other, reached := placeBehind f }) hc
  simp only [close, Parser.unwind] at hclose
  rw [closeCall_noArguments rfl] at hclose
  exact ⟨_, foldlM_concat_ok hopen hclose, rfl, rfl, rfl, fun _ _ => rfl⟩

theorem runs_call {es : List Expr} {ts : List Token} {f o c : Token} (hf : f.kind = .name) (ho : o.kind = .openParen)
    (hpos : 0 < es.length) (h : ArgumentsRun es ts) (hc : c.kind = .closeParen) :
    Runs primary (.call f.lexeme es) (f :: o :: ts ++ [c]) := by
  intro s hs
  obtain ⟨s₁, hrun, hdue, hframes, hunwind⟩ := h
    { s with
      pending := .call f.lexeme (placeOf o) :: s.pending, frames := ⟨f.lexeme, 0⟩ :: s.frames, operandDue := true,
      last := .other, reached := placeBehind f }
    f.lexeme (placeOf o) s.pending 0 s.frames rfl rfl rfl rfl
  obtain ⟨args, e, rfl⟩ : ∃ args e, es = args ++ [e] := by
    rcases List.eq_nil_or_concat es with rfl | ⟨args, e, h⟩
    · cases hpos
    · exact ⟨args, e, by simpa using h⟩
  have hclose := step_close (s := s₁) hc
  simp only [close, hunwind, hdue] at hclose
  rw [List.reverse_append, List.reverse_singleton, List.singleton_append, List.cons_append,
    closeCall_arguments (by simpa using hframes)] at hclose
  have hall : ([f, o] ++ ts ++ [c]).foldlM step s = .ok _ :=
    foldlM_concat_ok ((foldlM_append_ok (foldlM_openCall hf ho hs.operandDue)).trans hrun) hclose
  exact ⟨_, hall, rfl, rfl, rfl, fun _ _ => rfl⟩

/-! ### Operators -/

theorem runs_unary {op : PrefixOp} {e : Expr} {ts : List Token} {t : Token} (ht : t.kind = .operator)
    (hop : PrefixOp.ofSymbol? t.lexeme = some op) (h : Runs PrefixOp.level e ts) :
    Runs PrefixOp.level (.unary op e) (t :: ts) := by
  intro s hs
  obtain ⟨s₁, hrun, htook⟩ := h
    { s with last := .other, reached := placeBehind t, pending := .prefixOp op (placeOf t) :: s.pending }
    ⟨hs.operandDue, rfl, Nat.le_refl _⟩
  refine ⟨s₁, (foldlM_cons_ok (step_prefixOp ht hop hs.operandDue)).trans hrun, htook.operandDue, htook.frames,
    htook.unwind, fun next hnext => ?_⟩
  rw [htook.reduce next hnext]
  simp [Parser.reduce, yields_eq, hnext, applyPrefix]

theorem runs_binary {op : BinaryOp} {l r : Expr} {ls rs : List Token} {t : Token} (hl : Runs op.leftLevel l ls)
    (ht : t.kind = .operator) (hop : BinaryOp.ofSymbol? t.lexeme = some op) (hr : Runs op.rightLevel r rs) :
    Runs op.level (.binary op l r) (ls ++ t :: rs) := by
  intro s hs
  -- The left operand: whatever of it still waits is completed by the operator.
  obtain ⟨s₁, hrun₁, htook₁⟩ := hl s ⟨hs.operandDue, hs.last, Nat.le_trans hs.floor op.level_le_leftLevel⟩
  have hreduce := (htook₁.reduce op (Nat.le_refl _)).trans (reduce_eq_of_floor_le hs.floor _)
  have hstep := step_binaryOp ht hop htook₁.operandDue hreduce
  -- The right operand, on top of the operator.
  obtain ⟨s₂, hrun₂, htook₂⟩ := hr
    { s₁ with
      operands := l :: s.operands, pending := .binaryOp op (placeOf t) :: s.pending, operandDue := true,
      last := .other, reached := placeBehind t }
    ⟨rfl, rfl, Nat.le_refl op.rightLevel⟩
  refine ⟨s₂, ?_, htook₂.operandDue, htook₂.frames.trans htook₁.frames, htook₂.unwind, fun next hnext => ?_⟩
  · rw [foldlM_append_ok hrun₁, foldlM_cons_ok hstep]
    exact hrun₂
  · rw [htook₂.reduce next (Nat.le_trans hnext op.level_le_rightLevel)]
    simp [Parser.reduce, yields_eq, hnext, applyBinary]

/-! ### Arguments -/

theorem argumentsRun_first {e : Expr} {ts : List Token} (h : Runs 1 e ts) : ArgumentsRun [e] ts := by
  intro s f p ps k fs hdue hlast hps hfs
  obtain ⟨s₁, hrun, htook⟩ := h s ⟨hdue, hlast, by rw [hps]; exact Nat.le_refl 1⟩
  refine ⟨s₁, hrun, htook.operandDue, htook.frames.trans hfs, ?_⟩
  rw [htook.unwind, hps]
  rfl

theorem argumentsRun_more {es : List Expr} {e : Expr} {ts us : List Token} {t : Token} (hpos : 0 < es.length)
    (hes : ArgumentsRun es ts) (ht : IsSeparator t) (h : Runs 1 e us) : ArgumentsRun (es ++ [e]) (ts ++ t :: us) := by
  intro s f p ps k fs hdue hlast hps hfs
  obtain ⟨s₁, hrun₁, hdue₁, hframes₁, hunwind₁⟩ := hes s f p ps k fs hdue hlast hps hfs
  have hstep : step s₁ t = .ok
      { s₁ with
        operands := es.reverse ++ s.operands, pending := .call f p :: ps, frames := ⟨f, k + es.length⟩ :: fs,
        operandDue := true, last := .other, reached := placeBehind t } := by
    have hk : k + (es.length - 1) + 1 = k + es.length := by omega
    rcases ht with ht | ht <;>
      simp [step_read, isDress, ht, Parser.read, separate, hdue₁, hunwind₁, hframes₁, hk]
  obtain ⟨s₂, hrun₂, htook₂⟩ := h
    { s₁ with
      operands := es.reverse ++ s.operands, pending := .call f p :: ps, frames := ⟨f, k + es.length⟩ :: fs,
      operandDue := true, last := .other, reached := placeBehind t }
    ⟨rfl, rfl, Nat.le_refl 1⟩
  refine ⟨s₂, ?_, htook₂.operandDue, by simpa using htook₂.frames, ?_⟩
  · rw [foldlM_append_ok hrun₁, foldlM_cons_ok hstep]
    exact hrun₂
  · simpa [Parser.unwind] using htook₂.unwind

/-- All tokens of an expression. -/
theorem Derives.runs {n : Nat} {e : Expr} {ts : List Token} (h : Derives n e ts) : Runs n e ts :=
  @Derives.rec (fun n e ts _ => Runs n e ts) (fun es ts _ => ArgumentsRun es ts) runs_number runs_var
    (fun ho _ hc h => runs_group ho h hc) runs_noArguments
    (fun hf ho hargs hc h => runs_call hf ho hargs.length_pos h hc) (fun ht hop _ h => runs_unary ht hop h)
    (fun _ ht hop _ hl hr => runs_binary hl ht hop hr) (fun hle _ h => h.weaken hle) (fun _ h => argumentsRun_first h)
    (fun hargs hs _ hes h => argumentsRun_more hargs.length_pos hes hs h) n e ts h

/-! ### Comments, line ends and suffixes -/

/-- The states differ at most in what stands before the next token and in how far they have come. -/
def Alike (s s' : State) : Prop := ∃ l p, s' = { s with last := l, reached := p }

theorem Alike.refl (s : State) : Alike s s := ⟨s.last, s.reached, rfl⟩

theorem Alike.step_eq {s s' : State} {t : Token} (h : Alike s s') (hd : ∀ last, isDress last t = false)
    (hopen : t.kind = .openParen → s.last ≠ .name ∧ s'.last ≠ .name) : step s' t = step s t := by
  obtain ⟨l, p, rfl⟩ := h
  rw [step_eq_read (hd _) fun hc => (hopen hc.1).1 hc.2, step_eq_read (hd _) fun hc => (hopen hc.1).2 hc.2]

theorem step_suffixes {ss : List Token} (hss : ∀ s ∈ ss, s.kind.isSuffix = true) {s : State}
    (hlast : s.last = .name ∨ s.last = .suffix) : ∃ s', ss.foldlM step s = .ok s' ∧ Alike s s' := by
  induction ss generalizing s with
  | nil => exact ⟨s, rfl, Alike.refl s⟩
  | cons t ss ih =>
    have hd : isDress s.last t = true ∧ follow s.last t = .suffix := by
      have ht := hss t List.mem_cons_self
      rcases hlast with h | h <;> cases hk : t.kind <;> simp_all [isDress, follow, Token.Kind.isSuffix]
    obtain ⟨s', hrun, l, p, halike⟩ := ih (s := { s with last := .suffix })
      (fun u hu => hss u (List.mem_cons_of_mem _ hu)) (Or.inr rfl)
    refine ⟨s', ?_, l, p, halike⟩
    rw [foldlM_cons_ok (step_dress hd.1), hd.2]
    exact hrun

/-- Dressed tokens are read like bare ones. -/
theorem Dresses.run {us ts : List Token} (h : Dresses us ts) {s s' r : State} (halike : Alike s s')
    (hopen : ∀ u ∈ us.head?, u.kind = .openParen → s.last ≠ .name ∧ s'.last ≠ .name)
    (hrun : us.foldlM step s = .ok r) : ∃ r', ts.foldlM step s' = .ok r' ∧ Alike r r' := by
  induction h generalizing s s' with
  | nil =>
    cases hrun
    exact ⟨s', rfl, halike⟩
  | @silent us ts c hc h ih =>
    obtain ⟨l, p, rfl⟩ := halike
    have hstep : ∀ s : State, step s c = .ok { s with last := .other } := by
      intro s
      rcases hc with hc | hc <;> simp [step, hc]
    have halike : Alike s { s with last := .other, reached := p } := ⟨.other, p, rfl⟩
    obtain ⟨r', hrun', hr⟩ := ih halike (fun u hu hk => ⟨(hopen u hu hk).1, by simp⟩) hrun
    exact ⟨r', (foldlM_cons_ok (hstep _)).trans hrun', hr⟩
  | @var us ts t ss ht hus hss h ih =>
    have hstep := halike.step_eq (t := t) (by simp [isDress, ht]) (by simp [ht])
    obtain ⟨s₁, h₁, hrun⟩ := foldlM_cons_eq_ok hrun
    have hlast : s₁.last = .name := by simpa [follow, ht] using step_last h₁
    obtain ⟨s₂, h₂, halike₂⟩ := step_suffixes hss (Or.inl hlast)
    obtain ⟨r', hrun', hr⟩ := ih halike₂ (fun u hu hk => absurd hk (hus u hu)) hrun
    refine ⟨r', ?_, hr⟩
    rw [List.cons_append, foldlM_cons_ok (hstep.trans h₁), foldlM_append_ok h₂]
    exact hrun'
  | @call us ts f o hf ho h ih =>
    have hstep := halike.step_eq (t := f) (by simp [isDress, hf]) (by simp [hf])
    obtain ⟨s₁, h₁, hrun⟩ := foldlM_cons_eq_ok hrun
    obtain ⟨s₂, h₂, hrun⟩ := foldlM_cons_eq_ok hrun
    have hlast : s₂.last = .other := by simpa [follow, ho] using step_last h₂
    obtain ⟨r', hrun', hr⟩ := ih (Alike.refl s₂) (by simp [hlast]) hrun
    refine ⟨r', ?_, hr⟩
    rw [foldlM_cons_ok (hstep.trans h₁), foldlM_cons_ok h₂]
    exact hrun'
  | @plain us ts t ht h ih =>
    have hstep := halike.step_eq (isDress_of_isPlain ht) (hopen t rfl)
    obtain ⟨s₁, h₁, hrun⟩ := foldlM_cons_eq_ok hrun
    have hlast : s₁.last = .other := (step_last h₁).trans (follow_of_isPlain ht _)
    obtain ⟨r', hrun', hr⟩ := ih (Alike.refl s₁) (by simp [hlast]) hrun
    exact ⟨r', (foldlM_cons_ok (hstep.trans h₁)).trans hrun', hr⟩

theorem Dresses.not_isFinish {us ts : List Token} (h : Dresses us ts) : ∀ t ∈ ts, t.kind.isFinish = false := by
  induction h with
  | nil => simp
  | silent hc _ ih =>
    rcases hc with hc | hc <;> simpa [hc, Token.Kind.isFinish] using ih
  | @var us ts t ss ht hus hss h ih =>
    have hsuffix : ∀ s ∈ ss, s.kind.isFinish = false := fun s hs => by
      have := hss s hs
      cases hk : s.kind <;> simp_all [Token.Kind.isSuffix, Token.Kind.isFinish]
    intro t' ht'
    rcases List.mem_append.mp ht' with ht' | ht'
    · rcases List.mem_cons.mp ht' with rfl | ht'
      · simp [ht, Token.Kind.isFinish]
      · exact hsuffix t' ht'
    · exact ih t' ht'
  | call hf ho _ ih => simpa [hf, ho, Token.Kind.isFinish] using ih
  | @plain us ts t ht _ ih =>
    have hend : t.kind.isFinish = false := by cases hk : t.kind <;> simp_all [isPlain, Token.Kind.isFinish]
    simpa [hend] using ih

/-- What stands behind the end of the text does not count. -/
theorem parseTokens_append_finish {ts rest : List Token} (hts : ∀ t ∈ ts, t.kind.isFinish = false)
    (hrest : ∀ t ∈ rest.head?, t.kind = .finish) : parseTokens (ts ++ rest) = parseTokens ts := by
  have hbefore : (ts ++ rest).takeWhile (!·.kind.isFinish) = ts := by
    rw [List.takeWhile_append_of_pos fun t ht => by simp [hts t ht]]
    cases rest with
    | nil => simp
    | cons t rest => simp [hrest t rfl, Token.Kind.isFinish]
  have hall : ts.takeWhile (!·.kind.isFinish) = ts := List.takeWhile_eq_self_iff.mpr fun t ht => by simp [hts t ht]
  unfold parseTokens
  rw [hbefore, hall]

theorem parseTokens_of_dresses {e : Expr} {us ts : List Token} (he : Derives 1 e us) (hts : Dresses us ts) :
    parseTokens ts = .ok e := by
  obtain ⟨s, hrun, htook⟩ := he.runs {} ⟨rfl, rfl, Nat.le_refl 1⟩
  obtain ⟨s', hrun', l, p, rfl⟩ := hts.run (Alike.refl {}) (by simp) hrun
  have hall : ts.takeWhile (!·.kind.isFinish) = ts :=
    List.takeWhile_eq_self_iff.mpr fun t ht => by simp [hts.not_isFinish t ht]
  unfold parseTokens
  rw [hall, hrun']
  simp [conclude, complete, htook.operandDue, htook.unwind, Parser.unwind]

/-! ### One expression for the same tokens -/

/-- The tokens of an expression are a dress of themselves, in front of anything that is no parenthesis. -/
def DressesItself (ts : List Token) : Prop :=
  ∀ us vs, Dresses us vs → (∀ u ∈ us.head?, u.kind ≠ .openParen) → Dresses (ts ++ us) (ts ++ vs)

theorem dressesItself_cons {t : Token} {ts : List Token} (ht : isPlain t = true) (h : DressesItself ts) :
    DressesItself (t :: ts) := fun us vs huv hhead => .plain ht (h us vs huv hhead)

theorem dressesItself_call {f o : Token} {ts : List Token} (hf : f.kind = .name) (ho : o.kind = .openParen)
    (h : DressesItself ts) : DressesItself (f :: o :: ts) := fun us vs huv hhead => .call hf ho (h us vs huv hhead)

/-- Tokens, a token that opens no parenthesis, and further tokens. -/
theorem dressesItself_append {t : Token} {ts us : List Token} (h : DressesItself ts) (ht : isPlain t = true)
    (hopen : t.kind ≠ .openParen) (h' : DressesItself us) : DressesItself (ts ++ t :: us) := by
  intro vs ws hvw hhead
  rw [List.append_assoc, List.append_assoc]
  exact h _ _ (.plain ht (h' vs ws hvw hhead)) (by simpa using hopen)

theorem Derives.dressesItself {n : Nat} {e : Expr} {ts : List Token} (h : Derives n e ts) : DressesItself ts := by
  have hnil : DressesItself [] := fun _ _ huv _ => huv
  have hclose {c : Token} {ts : List Token} (hc : c.kind = .closeParen) (h : DressesItself ts) :
      DressesItself (ts ++ [c]) := dressesItself_append h (by simp [isPlain, hc]) (by simp [hc]) hnil
  exact @Derives.rec (fun _ _ ts _ => DressesItself ts) (fun _ ts _ => DressesItself ts)
    (fun ht => dressesItself_cons (by simp [isPlain, ht]) hnil)
    (fun ht us vs huv hhead => Dresses.var [] ht hhead (by simp) huv)
    (fun ho _ hc h => hclose hc (dressesItself_cons (by simp [isPlain, ho]) h))
    (fun hf ho hc => hclose hc (dressesItself_call hf ho hnil))
    (fun hf ho _ hc h => hclose hc (dressesItself_call hf ho h))
    (fun ht _ _ h => dressesItself_cons (by simp [isPlain, ht]) h)
    (fun _ ht _ _ hl hr => dressesItself_append hl (by simp [isPlain, ht]) (by simp [ht]) hr)
    (fun _ _ h => h) (fun _ h => h)
    (fun _ hs _ hes h => by
      rcases hs with hs | hs <;> exact dressesItself_append hes (by simp [isPlain, hs]) (by simp [hs]) h)
    n e ts h

/-- The grammar is unambiguous. -/
theorem Derives.unique {e e' : Expr} {ts : List Token} (h : Derives 1 e ts) (h' : Derives 1 e' ts) : e = e' := by
  have hdress : Dresses (ts ++ []) (ts ++ []) := h.dressesItself [] [] .nil (by simp)
  rw [List.append_nil] at hdress
  have hparse := parseTokens_of_dresses h hdress
  have hparse' := parseTokens_of_dresses h' hdress
  exact Except.ok.inj (hparse.symm.trans hparse')

end Grammar
end Worksheet
