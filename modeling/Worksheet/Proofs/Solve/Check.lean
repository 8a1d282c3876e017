import Worksheet.Proofs.Number.Order
import Worksheet.Proofs.Solve.Step
import Worksheet.Solve.Output

/-! What the check of the equations reports. Writing the values leaves the context as it is, and so does the check
    itself, so each report of an imbalance tells the values that the two sides have when all is solved. -/

namespace Worksheet

/-- The issue is an imbalance of the equation `text` on a line. -/
def Issue.isImbalance (line : Nat) (text : Text) (i : Issue) : Bool :=
  match i.problem with
  | .unbalanced t _ _ => i.line == line && t == text
  | _ => false

theorem Issue.isImbalance_iff {line : Nat} {text : Text} {i : Issue} :
    i.isImbalance line text = true ↔ ∃ l r, i = ⟨line, .unbalanced text l r⟩ := by
  obtain ⟨n, p⟩ := i
  cases p <;> simp [isImbalance]

namespace SolveState

/-! ### Writing values -/

theorem foldl_context {α : Type} {f : SolveState → α → SolveState} (hf : ∀ s a, (f s a).context = s.context)
    (s : SolveState) (xs : List α) : (xs.foldl f s).context = s.context := by
  induction xs generalizing s with
  | nil => rfl
  | cons a xs ih => exact (ih _).trans (hf s a)

theorem context_spliceOne (line : Nat) (reporting : Bool) (s : SolveState) (e : Inline) :
    (spliceOne line reporting s e).context = s.context := by
  obtain ⟨t, ht, heq | ⟨p, heq⟩ | ⟨x, heq⟩⟩ := s.spliceOne_cases line reporting e <;> rw [heq] <;> exact ht.context

theorem context_writeExpression (s : SolveState) (line : Nat) (l : ValueLine) (source : Text) :
    (s.writeExpression line l source).context = s.context := by
  have huses := s.uses_evaluateText line source
  unfold writeExpression
  split
  · rfl
  · split
    · rename_i p s₁ heq
      rw [heq] at huses
      exact huses.context
    · rename_i v s₁ heq
      rw [heq] at huses
      exact huses.context

theorem context_writeDeclaration (s : SolveState) (reported : NameSet) (line : Nat) (name : Text) (l : ValueLine) :
    (s.writeDeclaration reported line name l).1.context = s.context := by
  unfold writeDeclaration
  split
  · rfl
  · dsimp only
    split
    · rfl
    · split
      · rfl
      · dsimp only
        unfold reportMissing
        split
        · rfl
        · split <;> rfl

theorem context_writeLine (x : SolveState × NameSet) (found : Option ValueLine × Nat) :
    (writeLine x found).1.context = x.1.context := by
  unfold writeLine
  split
  · rfl
  · split
    · exact x.1.context_writeExpression _ _ _
    · exact x.1.context_writeDeclaration _ _ _ _

theorem context_writeOutputs (s : SolveState) : s.writeOutputs.context = s.context := by
  have hlines (found : List (Option ValueLine × Nat)) (x : SolveState × NameSet) :
      (found.foldl writeLine x).1.context = x.1.context := by
    induction found generalizing x with
    | nil => rfl
    | cons f found ih => exact (ih _).trans (context_writeLine x f)
  unfold writeOutputs
  refine (hlines _ _).trans (foldl_context (fun s line => ?_) s _)
  exact foldl_context (context_spliceOne line true) s _

/-! ### Balance -/

theorem balances_self (settings : Settings) {v : Float} (h : v.isFinite = true) : balances settings v v = true := by
  have htolerance : 0 < balanceTolerance settings := Binary.zero_lt_greater _ (by decide +kernel)
  have hscale : 0 < Binary.greater (Binary.greater 1.0 v.abs) v.abs :=
    Binary.zero_lt_greater _ (Binary.zero_lt_greater _ (by decide +kernel))
  unfold balances
  rw [Binary.sub_self_of_isFinite h]
  exact decide_eq_true (Binary.zero_le_mul htolerance hscale)

/-- An imbalance with the values of the two sides in a context. -/
def Imbalance (c : Context) (settings : Settings) (line : Nat) (text : Text) (l r : Float) : Prop :=
  ∃ left right, Equation.parseSides text = .ok ⟨left, some right⟩ ∧ (left.eval (c.setLine line)).result = .ok l ∧
    (right.eval (c.setLine line)).result = .ok r ∧ balances settings l r = false

/-- The state after some checks: it has more issues, and those that tell of an imbalance are right. -/
structure Checked (s s' : SolveState) : Prop where
  context : s'.context = s.context
  settings : s'.settings = s.settings
  reports : ∃ new, s'.issues = s.issues ++ new ∧
    ∀ line text l r, ⟨line, .unbalanced text l r⟩ ∈ new → Imbalance s.context s.settings line text l r

section Checked
variable {s s' s'' : SolveState}

theorem Uses.checked (h : Uses s s') : Checked s s' := by
  obtain ⟨u, rfl⟩ := h
  exact ⟨rfl, rfl, [], by simp, by simp⟩

theorem Checked.trans (h : Checked s s') (h' : Checked s' s'') : Checked s s'' where
  context := h'.context.trans h.context
  settings := h'.settings.trans h.settings
  reports := by
    obtain ⟨new, hissues, hnew⟩ := h.reports
    obtain ⟨new', hissues', hnew'⟩ := h'.reports
    rw [h.context, h.settings] at hnew'
    refine ⟨new ++ new', by rw [hissues', hissues, List.append_assoc], ?_⟩
    intro line text l r hmem
    rcases List.mem_append.mp hmem with hmem | hmem
    · exact hnew line text l r hmem
    · exact hnew' line text l r hmem

theorem checked_report (s : SolveState) (line : Nat) (p : Problem)
    (h : ∀ text l r, p = .unbalanced text l r → Imbalance s.context s.settings line text l r) :
    Checked s (s.report line p) := by
  refine ⟨rfl, rfl, [⟨line, p⟩], rfl, ?_⟩
  intro line' text l r hmem
  obtain ⟨rfl, rfl⟩ := Issue.mk.inj (List.mem_singleton.mp hmem)
  exact h text l r rfl

/-- Both values of two evaluations. -/
theorem result_pair {x y : Evaluation Float} {l r : Float}
    (h : (do return (← x, ← y) : Evaluation (Float × Float)).result = .ok (l, r)) :
    x.result = .ok l ∧ y.result = .ok r := by
  rw [Evaluation.result_bind] at h
  cases hx : x.result with
  | error e =>
    rw [hx] at h
    cases h
  | ok v =>
    rw [hx, Except.bind, Evaluation.result_bind] at h
    cases hy : y.result with
    | error e =>
      rw [hy] at h
      cases h
    | ok w =>
      rw [hy] at h
      obtain ⟨rfl, rfl⟩ := Prod.mk.inj (Except.ok.inj h)
      exact ⟨rfl, rfl⟩

theorem checked_checkSides {eq : Equation} {left right : Expr}
    (hsides : Equation.parseSides eq.text = .ok ⟨left, some right⟩) : Checked s (s.checkSides eq left right) := by
  unfold checkSides
  dsimp only
  generalize hboth : (do return (← left.eval (s.contextAt eq.firstLine), ← right.eval (s.contextAt eq.firstLine)) :
    Evaluation (Float × Float)) = both
  refine (s.uses_use both.used).checked.trans ?_
  split
  · exact checked_report _ _ _ fun _ _ _ h => nomatch h
  · rename_i l r hvalues
    split
    · exact (Uses.refl _).checked
    · rename_i hunbalanced
      refine checked_report _ _ _ ?_
      rintro text l' r' hproblem
      obtain ⟨rfl, rfl, rfl⟩ := Problem.unbalanced.inj hproblem
      obtain ⟨hl, hr⟩ := result_pair (hboth ▸ hvalues)
      exact ⟨left, right, hsides, hl, hr, Bool.eq_false_iff.mpr hunbalanced⟩

theorem checked_checkEquation (s : SolveState) (eq : Equation) : Checked s (s.checkEquation eq) := by
  unfold checkEquation
  split
  · exact checked_report _ _ _ fun _ _ _ h => nomatch h
  · rename_i left hsides
    have huses := s.uses_use (left.eval (s.contextAt eq.firstLine)).used
    unfold checkLeft
    rw [evaluate_eq]
    cases (left.eval (s.contextAt eq.firstLine)).result with
    | error e => exact huses.checked.trans (checked_report _ _ _ fun _ _ _ h => nomatch h)
    | ok v => exact huses.checked
  · rename_i left right hsides
    split
    · exact checked_checkSides hsides
    · exact (Uses.refl s).checked

theorem checked_checkBalance (s : SolveState) : Checked s s.checkBalance := by
  unfold checkBalance
  generalize Equation.find s.lines = equations
  induction equations generalizing s with
  | nil => exact (Uses.refl s).checked
  | cons eq equations ih => exact (s.checked_checkEquation eq).trans (ih _)

end Checked
end SolveState
end Worksheet
