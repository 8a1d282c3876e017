import Worksheet.Proofs.Expr.Takes

/-! The stacks of the parser stay in step. The number of operands is known from what waits: one for each binary operator
    and for each argument that a separator has closed, and one more behind an operand. Each operator that is completed
    and each token that is taken keeps this count, also where an operator takes an operand from in front of the call that
    it stands in. Hence no call is ever without its frame or its arguments, and one operand is left in the end. -/

namespace Worksheet
namespace Parser

/-! ### The count -/

/-- The number of binary operators that wait. -/
def binaries : List Pending → Nat
  | [] => 0
  | .binaryOp _ _ :: ps => binaries ps + 1
  | .prefixOp _ _ :: ps | .group _ :: ps | .call _ _ :: ps => binaries ps

/-- The functions of the open calls. -/
def callees : List Pending → List Text
  | [] => []
  | .call f _ :: ps => f :: callees ps
  | .prefixOp _ _ :: ps | .binaryOp _ _ :: ps | .group _ :: ps => callees ps

/-- The number of arguments that separators have closed in the open calls. -/
def closedArguments : List Frame → Nat
  | [] => 0
  | f :: fs => f.closedArgs + closedArguments fs

/-- Operands, what waits, and the frames of the open calls fit together. -/
structure InStep (es : List Expr) (ps : List Pending) (fs : List Frame) (due : Bool) : Prop where
  operands : es.length = binaries ps + closedArguments fs + if due then 0 else 1
  /-- There is one frame for each open call, of the same function and in the same order. -/
  frames : fs.map Frame.function = callees ps

section InStep
variable {es es' : List Expr} {ps ps' : List Pending} {fs : List Frame} {due : Bool}

/-- The frame of the newest call belongs to the parenthesis that waits for its end. -/
theorem InStep.frame_eq {f : Text} {p : Place} (h : InStep es (.call f p :: ps) fs due) :
    ∃ n fs', fs = ⟨f, n⟩ :: fs' := by
  cases fs with
  | nil => cases h.frames
  | cons frame fs =>
    obtain ⟨rfl, -⟩ := List.cons.inj h.frames
    exact ⟨_, fs, rfl⟩

theorem InStep.completes {a b : List Expr × List Pending} (h : InStep a.1 a.2 fs due) (hone : Completes a b) :
    InStep b.1 b.2 fs due := by
  cases hone with
  | prefixOp => exact ⟨h.operands, h.frames⟩
  | binaryOp =>
    refine ⟨?_, h.frames⟩
    have hcount := h.operands
    simp only [List.length_cons, binaries] at hcount ⊢
    omega

theorem InStep.completing {a b : List Expr × List Pending} (h : InStep a.1 a.2 fs due) (hall : Completing a b) :
    InStep b.1 b.2 fs due := by
  induction hall with
  | refl => exact h
  | tail _ hone ih => exact ih.completes hone

end InStep

/-! ### One token -/

/-- The stacks of a state are in step, and a name before a parenthesis is an operand. -/
structure Stacked (s : State) : Prop where
  inStep : InStep s.operands s.pending s.frames s.operandDue
  name : s.last = .name → s.operandDue = false

theorem Stacked.start : Stacked {} := ⟨⟨rfl, rfl⟩, nofun⟩

section Step
variable {s s' : State} {t : Token} {e : ParseError}

/-- What is left when the operators above an open call are completed. -/
theorem Stacked.open_call {es : List Expr} {ps : List Pending} {f : Text} {p : Place} (h : Stacked s)
    (hcall : Completing (s.operands, s.pending) (es, .call f p :: ps)) : ∃ n fs, s.frames = ⟨f, n⟩ :: fs ∧
      es.length = binaries ps + closedArguments fs + n + (if s.operandDue then 0 else 1) ∧
      fs.map Frame.function = callees ps := by
  have hin : InStep es (.call f p :: ps) s.frames s.operandDue := h.inStep.completing hcall
  obtain ⟨n, fs, hfs⟩ := hin.frame_eq
  have hcount := hin.operands
  have hframes := hin.frames
  rw [hfs] at hcount hframes
  simp only [binaries, closedArguments] at hcount
  exact ⟨n, fs, hfs, by omega, (List.cons.inj hframes).2⟩

theorem Stacked.takes (h : Stacked s) (ht : Takes t s s') : Stacked s' := by
  cases ht with
  | dress hl => exact ⟨h.inStep, fun hname => absurd hname hl⟩
  | operand he => exact ⟨⟨congrArg (· + 1) h.inStep.operands, h.inStep.frames⟩, fun _ => rfl⟩
  | prefixOp hop => exact ⟨⟨h.inStep.operands, h.inStep.frames⟩, nofun⟩
  | binaryOp hop hall =>
    have hin := h.inStep.completing hall
    have hcount := hin.operands
    refine ⟨⟨?_, hin.frames⟩, nofun⟩
    simp only [binaries, if_true, Bool.false_eq_true, if_false] at hcount ⊢
    omega
  | group => exact ⟨⟨h.inStep.operands, h.inStep.frames⟩, nofun⟩
  | call =>
    obtain rfl := h.name rfl
    have hcount := h.inStep.operands
    refine ⟨⟨?_, congrArg (List.cons _) h.inStep.frames⟩, nofun⟩
    simp only [List.length_cons, binaries, closedArguments, if_true, Bool.false_eq_true, if_false] at hcount ⊢
    omega
  | separator hcall =>
    obtain ⟨n, fs, hfs, hcount, hframes⟩ := h.open_call hcall
    cases hfs
    refine ⟨⟨?_, congrArg (List.cons _) hframes⟩, nofun⟩
    simp only [binaries, closedArguments, if_true, Bool.false_eq_true, if_false] at hcount ⊢
    omega
  | closeGroup hall =>
    have hin := h.inStep.completing hall
    exact ⟨⟨hin.operands, hin.frames⟩, nofun⟩
  | closeEmpty hcall =>
    obtain ⟨n, fs, hfs, hcount, hframes⟩ := h.open_call hcall
    cases hfs
    exact ⟨⟨congrArg (· + 1) hcount, hframes⟩, nofun⟩
  | closeCall hcall hargs =>
    obtain ⟨n, fs, hfs, hcount, hframes⟩ := h.open_call hcall
    cases hfs
    refine ⟨⟨?_, hframes⟩, nofun⟩
    simp only [List.length_append, List.length_reverse, List.length_cons, Bool.false_eq_true, if_false] at hcount ⊢
    omega

/-- No token finds the stacks out of step. -/
theorem Stacked.refuses (h : Stacked s) (ht : Refuses t s e) : e.cause.isImbalance = false := by
  cases ht with
  | operator hstarves =>
    obtain ⟨p, -, symbol, rfl⟩ := hstarves
    rfl
  | token himbalance _ => exact himbalance
  | imbalance _ hcall hframes =>
    obtain ⟨n, fs, hfs, hcount, -⟩ := h.open_call hcall
    obtain ⟨hdue, hfew⟩ := hframes ⟨_, n⟩ (by rw [hfs]; rfl)
    simp only [hdue, Bool.false_eq_true, if_false] at hcount hfew
    omega

/-- Nor does the end. -/
theorem Stacked.refusesEnd (h : Stacked s) (hs : RefusesEnd s e) : e.cause.isImbalance = false := by
  cases hs with
  | @early cause hend => cases cause <;> simp_all [ParseCause.isEarlyEnd, ParseCause.isImbalance]
  | waiting _ himbalance _ => exact himbalance
  | imbalance _ hdue hall hlength =>
    have hin := h.inStep.completing hall
    obtain hnil : s.frames = [] := List.map_eq_nil_iff.mp hin.frames
    have hcount := hin.operands
    rw [hnil, hdue] at hcount
    exact absurd hcount hlength

end Step

/-! ### All tokens -/

theorem stacked_of_run {ts : List Token} {s : State} (h : ts.foldlM step {} = .ok s) : Stacked s :=
  run_keeps .start (fun _ _ _ _ hs ht => hs.takes ht) h

/-- No tokens are refused because the stacks are out of step. -/
theorem isImbalance_of_parseTokens {ts : List Token} {e : ParseError} (h : parseTokens ts = .error e) :
    e.cause.isImbalance = false := by
  obtain ⟨us, s, -, hs, ⟨t, -, hrefuses⟩ | hend⟩ := parseTokens_error h
  · exact (stacked_of_run hs).refuses hrefuses
  · exact (stacked_of_run hs).refusesEnd hend

/-- The parser comes to these stacks while it reads `ts`: behind some of the tokens, when it has completed as many
    operators as it may. -/
def Visits (ts : List Token) (es : List Expr) (ps : List Pending) (fs : List Frame) (due : Bool) : Prop :=
  ∃ us s, us <+: ts ∧ us.foldlM step {} = .ok s ∧ Completing (s.operands, s.pending) (es, ps) ∧ s.frames = fs ∧
    s.operandDue = due

/-- Wherever the parser is, the operands are as many as the binary operators that wait and the closed arguments of the
    open calls, and one more if an operand has just been read; each open call has its frame, so that one is there when it
    is looked at. No tokens are refused for a call without its arguments or for more than one operand in the end. -/
theorem stacks_in_step (ts : List Token) :
    (∀ es ps fs due, Visits ts es ps fs due →
      es.length = binaries ps + closedArguments fs + (if due then 0 else 1) ∧
      fs.map Frame.function = callees ps ∧
      ∀ f p ps', ps = .call f p :: ps' → ∃ n fs', fs = ⟨f, n⟩ :: fs') ∧
    ∀ e, parseTokens ts = .error e → e.cause ≠ .malformed ∧ ∀ f, e.cause ≠ .notEnoughArguments f := by
  constructor
  · rintro es ps fs due ⟨us, s, -, hs, hall, rfl, rfl⟩
    have hin : InStep es ps s.frames s.operandDue := (stacked_of_run hs).inStep.completing hall
    refine ⟨hin.operands, hin.frames, ?_⟩
    rintro f p ps' rfl
    exact hin.frame_eq
  · intro e he
    have hbalance := isImbalance_of_parseTokens he
    refine ⟨fun hcause => ?_, fun f hcause => ?_⟩ <;> rw [hcause] at hbalance <;> cases hbalance

end Parser
end Worksheet
