import Worksheet.Proofs.Context
import Worksheet.Solve.Discover
import Worksheet.Solve.Equations

/-! What one equation does to the state of a solve. Besides what it writes and uses, it gives a value to one name that
    is not known on its line, or records a failure for that name, or does nothing. -/

namespace Worksheet.SolveState

/-! ### Evaluating -/

theorem result_of_isOk {x : Evaluation Float} (h : x.result.isOk = true) : x.result = .ok (valueOrNan x) := by
  unfold valueOrNan
  cases hx : x.result with
  | error e =>
    rw [hx] at h
    cases h
  | ok v => rfl

/-- The same state but for the names that were used. -/
def Uses (s t : SolveState) : Prop := ∃ u, t = { s with used := u }

section Uses
variable {s t t' : SolveState}

theorem Uses.refl (s : SolveState) : Uses s s := ⟨s.used, rfl⟩

theorem Uses.trans (h : Uses s t) (h' : Uses t t') : Uses s t' := by
  obtain ⟨u, rfl⟩ := h
  obtain ⟨u', rfl⟩ := h'
  exact ⟨u', rfl⟩

theorem uses_use (s : SolveState) (u : Usage) : Uses s (s.use u) := ⟨_, rfl⟩

theorem uses_useAt (s : SolveState) (f : Float → Evaluation Float) (points : List Float) : Uses s (s.useAt f points) := by
  induction points generalizing s with
  | nil => exact .refl s
  | cons p points ih => exact (s.uses_use (f p).used).trans (ih _)

theorem Uses.context (h : Uses s t) : t.context = s.context := by
  obtain ⟨u, rfl⟩ := h
  rfl

end Uses

section Evaluate
variable (s : SolveState) (line : Nat)

theorem evaluate_eq (e : Expr) :
    s.evaluate line e = ((e.eval (s.contextAt line)).result, s.use (e.eval (s.contextAt line)).used) := rfl

theorem uses_evaluateText (t : Text) : Uses s (s.evaluateText line t).2 := by
  unfold evaluateText
  split
  · exact .refl s
  · rename_i e he
    rw [evaluate_eq]
    cases (e.eval (s.contextAt line)).result <;> exact s.uses_use _

theorem uses_valueOf (style : Style) (t : Text) : Uses s (s.valueOf line style t).2 := by
  unfold valueOf
  split
  · exact .refl s
  · exact s.uses_evaluateText line t

/-- An inline expression is replaced by its value; without one there may be a report. -/
theorem spliceOne_cases (reporting : Bool) (e : Inline) :
    ∃ t, Uses s t ∧ (spliceOne line reporting s e = t ∨ (∃ p, spliceOne line reporting s e = t.report line p) ∨
      ∃ x, spliceOne line reporting s e = t.setLine line x) := by
  have huses := s.uses_evaluateText line e.source
  unfold spliceOne
  generalize s.evaluateText line e.source = r at huses
  obtain ⟨p | v, t⟩ := r
  · cases reporting with
    | false => exact ⟨t, huses, .inl rfl⟩
    | true => exact ⟨t, huses, .inr (.inl ⟨p, rfl⟩)⟩
  · exact ⟨t, huses, .inr (.inr ⟨_, rfl⟩)⟩

theorem uses_limitsOf (name : Text) : Uses s (s.limitsOf name).2 := by
  unfold limitsOf
  split
  · exact .refl s
  · rename_i site hsite
    split
    · exact .refl s
    · rename_i l hl
      have hlow := s.uses_valueOf site.line site.found.decoration.style l.low
      split
      · rename_i heq
        rw [heq] at hlow
        exact hlow
      · rename_i low s₁ heq
        rw [heq] at hlow
        have hhigh := s₁.uses_valueOf site.line site.found.decoration.style l.high
        split <;> rename_i heq' <;> rw [heq'] at hhigh <;> exact hlow.trans hhigh

end Evaluate

/-! ### The limits of a name do not depend on what was used -/

section Limits
variable {s t : SolveState}

theorem Uses.evaluateText_fst (h : Uses s t) (line : Nat) (x : Text) :
    (t.evaluateText line x).1 = (s.evaluateText line x).1 := by
  obtain ⟨u, rfl⟩ := h
  unfold evaluateText
  cases parseExpr x with
  | error e => rfl
  | ok e =>
    dsimp only
    rw [evaluate_eq, evaluate_eq]
    have hsame : ({ s with used := u } : SolveState).contextAt line = s.contextAt line := rfl
    rw [hsame]
    cases (e.eval (s.contextAt line)).result <;> rfl

theorem Uses.valueOf_fst (h : Uses s t) (line : Nat) (style : Style) (x : Text) :
    (t.valueOf line style x).1 = (s.valueOf line style x).1 := by
  unfold valueOf
  cases Literal.read? x style with
  | some v => rfl
  | none => exact h.evaluateText_fst line x

/-- The limits between two values. -/
def limitsBetween? (low high : Except Problem Float) : Option Limits :=
  match low, high with
  | .ok low, .ok high => some ⟨low, high⟩
  | _, _ => none

theorem limitsOf_fst (s : SolveState) (name : Text) : (s.limitsOf name).1 =
    ((s.sites.find? fun site => site.name == name && site.found.limits?.isSome).bind fun site =>
      site.found.limits?.bind fun l => limitsBetween? (s.valueOf site.line site.found.decoration.style l.low).1
        (s.valueOf site.line site.found.decoration.style l.high).1) := by
  unfold limitsOf
  cases s.sites.find? fun site => site.name == name && site.found.limits?.isSome with
  | none => rfl
  | some site =>
    dsimp only [Option.bind_some]
    cases site.found.limits? with
    | none => rfl
    | some l =>
      dsimp only [Option.bind_some]
      have hlow := s.uses_valueOf site.line site.found.decoration.style l.low
      cases heq : s.valueOf site.line site.found.decoration.style l.low with
      | mk low s₁ =>
        rw [heq] at hlow
        cases low with
        | error p => rfl
        | ok low =>
          dsimp only
          rw [← hlow.valueOf_fst site.line site.found.decoration.style l.high]
          cases s₁.valueOf site.line site.found.decoration.style l.high with
          | mk high s₂ => cases high <;> rfl

theorem Uses.limitsOf_fst (h : Uses s t) (name : Text) : (t.limitsOf name).1 = (s.limitsOf name).1 := by
  have hsites : t.sites = s.sites := by
    obtain ⟨u, rfl⟩ := h
    rfl
  rw [SolveState.limitsOf_fst, SolveState.limitsOf_fst, hsites]
  simp only [h.valueOf_fst]

/-- The declared limits of a name admit a value. -/
def admits (s : SolveState) (name : Text) (v : Float) : Bool := (s.limitsOf name).1.all (·.admits v)

theorem Uses.admits_eq (h : Uses s t) (name : Text) (v : Float) : t.admits name v = s.admits name v := by
  rw [admits, admits, h.limitsOf_fst]

end Limits

/-! ### Deciding about a name -/

/-- A value for `x` is found, or a failure is recorded for it. -/
def Decides (line : Nat) (x : Text) (s s' : SolveState) : Prop :=
  ∃ t, Uses s t ∧ ((∃ v, s' = t.assign x v) ∨ ∃ cause, s' = t.fail x cause line)

/-- A name has a value, or a failure to find one is on record. -/
def Settled (s : SolveState) (x : Text) : Prop := s.context.hasVariable x = true ∨ s.failures.contains x = true

section Decides
variable {s s' : SolveState} {line : Nat} {x : Text}

theorem hasVariable_assign (s : SolveState) (x : Text) (v : Float) : (s.assign x v).context.hasVariable x = true := by
  show (s.context.values.insert x v).contains x = true
  simp [Table.contains_insert]

theorem contains_fail (s : SolveState) (x : Text) (cause : FailureCause) (line : Nat) :
    (s.fail x cause line).failures.contains x = true := by
  show (s.failures.insert x _).contains x = true
  simp [Table.contains_insert]

/-- What is decided about a name is on record. -/
theorem Decides.settled (h : Decides line x s s') : s'.Settled x := by
  obtain ⟨t, -, ⟨v, rfl⟩ | ⟨cause, rfl⟩⟩ := h
  · exact .inl (hasVariable_assign t x v)
  · exact .inr (contains_fail t x cause line)

end Decides

section Cases
variable (s : SolveState) (line : Nat)

theorem checkLimits_cases (name : Text) (v : Float) :
    (∃ t, Uses s t ∧ s.admits name v = true ∧ s.checkLimits name v line = (true, t)) ∨
      ∃ t cause, Uses s t ∧ s.admits name v = false ∧ s.checkLimits name v line = (false, t.fail name cause line) := by
  have hlimits := s.uses_limitsOf name
  unfold checkLimits admits
  cases heq : s.limitsOf name with
  | mk limits t =>
    rw [heq] at hlimits
    cases limits with
    | none => exact .inl ⟨t, hlimits, rfl, rfl⟩
    | some l =>
      dsimp only [Option.all_some]
      cases hadmits : l.admits v with
      | true => exact .inl ⟨t, hlimits, rfl, rfl⟩
      | false => exact .inr ⟨t, _, hlimits, rfl, rfl⟩

/-- A definition that reads no unknowns: without a value it fails, and so does a value outside the limits. -/
theorem evaluateDefinition_cases (d : Definition) :
    (∃ t e, Uses s t ∧ (d.expr.eval (s.contextAt line)).result = .error e ∧
      s.evaluateDefinition line d = t.fail d.name (.eval e) line) ∨
    ∃ t v, Uses s t ∧ (d.expr.eval (s.contextAt line)).result = .ok v ∧
      (s.admits d.name v = true ∧ s.evaluateDefinition line d = t.assign d.name v ∨
        s.admits d.name v = false ∧ ∃ cause, s.evaluateDefinition line d = t.fail d.name cause line) := by
  unfold evaluateDefinition
  rw [evaluate_eq]
  have huses := s.uses_use (d.expr.eval (s.contextAt line)).used
  generalize s.use (d.expr.eval (s.contextAt line)).used = s₁ at huses ⊢
  cases hvalue : (d.expr.eval (s.contextAt line)).result with
  | error e => exact .inl ⟨s₁, e, huses, rfl, rfl⟩
  | ok v =>
    refine .inr ?_
    dsimp only
    rcases s₁.checkLimits_cases line d.name v with ⟨t, ht, hadmits, heq⟩ | ⟨t, cause, ht, hadmits, heq⟩
    · rw [huses.admits_eq] at hadmits
      exact ⟨t, v, huses.trans ht, rfl, .inl ⟨hadmits, by rw [heq]⟩⟩
    · rw [huses.admits_eq] at hadmits
      exact ⟨t, v, huses.trans ht, rfl, .inr ⟨hadmits, cause, by rw [heq]⟩⟩

theorem decides_evaluateDefinition (d : Definition) : Decides line d.name s (s.evaluateDefinition line d) := by
  rcases s.evaluateDefinition_cases line d with
    ⟨t, e, ht, -, heq⟩ | ⟨t, v, ht, -, ⟨-, heq⟩ | ⟨-, cause, heq⟩⟩
  · exact ⟨t, ht, .inr ⟨_, heq⟩⟩
  · exact ⟨t, ht, .inl ⟨v, heq⟩⟩
  · exact ⟨t, ht, .inr ⟨cause, heq⟩⟩

theorem decides_solveFor (x : Text) (left right : Expr) : Decides line x s (s.solveFor line x left right) := by
  have hlimits := s.uses_limitsOf x
  unfold solveFor
  generalize s.limitsOf x = r at hlimits
  obtain ⟨limits, s₁⟩ := r
  dsimp only at hlimits ⊢
  have htried := s₁.uses_useAt (difference (s₁.contextAt line) x left right)
    (triedPoints (fun v => valueOrNan (difference (s₁.contextAt line) x left right v)) (trialPoints limits))
  split
  · exact ⟨_, hlimits.trans htried, .inr ⟨_, rfl⟩⟩
  · have hasked := (hlimits.trans htried).trans (uses_useAt _ (difference (s₁.contextAt line) x left right)
      (Root.find (fun v => valueOrNan (difference (s₁.contextAt line) x left right v)) limits).2.toList)
    split
    · exact ⟨_, hasked, .inl ⟨_, rfl⟩⟩
    · exact ⟨_, hasked, .inr ⟨_, rfl⟩⟩

theorem solveSides_cases (left right : Expr) (m : Eliminations) : s.solveSides line left right m = s ∨
    ∃ x, (s.contextAt line).isUnknown x = true ∧ Decides line x s (s.solveSides line left right m) := by
  unfold solveSides
  split
  · exact .inl rfl
  · rename_i x hx
    exact .inr ⟨x, (Context.unknowns_eq_singleton.mp hx).2.1, s.decides_solveFor line x left right⟩
  · dsimp only
    split
    · rename_i x hx
      exact .inr ⟨x, (Context.unknowns_eq_singleton.mp hx).2.1, s.decides_solveFor line x _ _⟩
    · exact .inl rfl

/-- An equation with two sides does nothing, or decides about a name that is not known. -/
theorem solveBoth_cases (sides : Sides) (right : Expr) (m : Eliminations) : s.solveBoth line sides right m = s ∨
    ∃ x, (s.contextAt line).isKnown x = false ∧ Decides line x s (s.solveBoth line sides right m) := by
  have hsides : s.solveSides line sides.left right m = s ∨
      ∃ x, (s.contextAt line).isKnown x = false ∧ Decides line x s (s.solveSides line sides.left right m) := by
    refine (s.solveSides_cases line sides.left right m).imp_right ?_
    rintro ⟨x, hx, h⟩
    exact ⟨x, (Context.isUnknown_iff.mp hx).1, h⟩
  unfold solveBoth
  split
  · exact hsides
  · rename_i d hd
    unfold define
    dsimp only
    by_cases hknown : ((s.contextAt line).isKnown d.name || s.given.contains d.name) = true
    · rw [if_pos hknown]
      cases !((s.contextAt line).unknowns [d.expr]).names.isEmpty with
      | true => exact hsides
      | false => exact .inl rfl
    · rw [if_neg hknown]
      simp only [Bool.or_eq_true, not_or, Bool.not_eq_true] at hknown
      by_cases hclosed : ((s.contextAt line).unknowns [d.expr]).names.isEmpty = true
      · rw [if_pos hclosed]
        exact .inr ⟨d.name, hknown.1, s.decides_evaluateDefinition line d⟩
      · rw [if_neg hclosed]
        exact .inl rfl

/-- Only an equation with one side is written into the text; what it does besides is on no record. -/
theorem complete_eq (eq : Equation) (left : Expr) (m : Eliminations) :
    ∃ u lines solved changed, s.complete eq left m = { s with used := u, lines, solved, changed } := by
  unfold complete
  split
  · exact ⟨s.used, s.lines, s.solved, s.changed, rfl⟩
  · rw [evaluate_eq]
    cases ((m.eliminate eq.firstLine left).eval (s.contextAt eq.firstLine)).result with
    | error e => exact ⟨_, s.lines, s.solved, s.changed, rfl⟩
    | ok v =>
      dsimp only
      split
      · exact ⟨_, s.lines, s.solved, s.changed, rfl⟩
      · exact ⟨_, _, _, _, rfl⟩

end Cases

/-- What an equation does. -/
inductive Step (line : Nat) (s s' : SolveState) : Prop
  | writes (u : Usage) (lines : List Text) (solved : Nat) (changed : Bool)
      (h : s' = { s with used := u, lines, solved, changed })
  | decides (x : Text) (hx : (s.contextAt line).isKnown x = false) (h : Decides line x s s')

theorem step_refl (line : Nat) (s : SolveState) : Step line s s := .writes s.used s.lines s.solved s.changed rfl

/-- One equation takes one step. -/
theorem step_solveEquation (m : Eliminations) (s : SolveState) (eq : Equation) :
    Step eq.firstLine s (solveEquation m s eq) := by
  unfold solveEquation
  split
  · exact step_refl _ s
  · rename_i sides hsides
    split
    · obtain ⟨u, lines, solved, changed, h⟩ := s.complete_eq eq sides.left m
      exact .writes u lines solved changed h
    · rename_i right hright
      rcases s.solveBoth_cases eq.firstLine sides right m with h | ⟨x, hx, h⟩
      · rw [h]
        exact step_refl _ s
      · exact .decides x hx h

section Step
variable {s s' : SolveState} {line : Nat}

theorem Step.given_eq (h : Step line s s') : s'.given = s.given := by
  rcases h with ⟨u, lines, solved, changed, rfl⟩ | ⟨x, -, t, ⟨u, rfl⟩, ⟨v, rfl⟩ | ⟨cause, rfl⟩⟩ <;> rfl

/-- A step gives values to none but unknown names. -/
theorem Step.learns (h : Step line s s') : s.context.Learns s'.context := by
  rcases h with ⟨u, lines, solved, changed, rfl⟩ | ⟨x, hx, t, ⟨u, rfl⟩, ⟨v, rfl⟩ | ⟨cause, rfl⟩⟩
  · exact .refl _
  · exact Context.learns_setVariable hx
  · exact .refl _

end Step
end Worksheet.SolveState
