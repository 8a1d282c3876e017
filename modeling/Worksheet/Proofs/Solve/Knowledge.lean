import Worksheet.Proofs.Expr.Reads
import Worksheet.Proofs.Solve.SecondPass

/-! What is known in the second pass. Equations, in whatever order and however often they are gone through, only add
    values, one name at a time, and a failure is on record only for a name without a value. A constant that the document
    hides has its shared value on the lines before, so the failure of such a name counts from its line on. -/

namespace Worksheet

namespace Context
variable {c : Context} {x y : Text}

/-- What is not known on a line is not known on the lines below: a constant that is hidden stays hidden. -/
theorem isKnown_setLine_of_le {i j : Int} (hij : i ≤ j) (h : (c.setLine i).isKnown x = false) :
    (c.setLine j).isKnown x = false := by
  obtain ⟨hvalue, hhidden⟩ := isKnown_eq_false_iff.mp h
  refine isKnown_eq_false_iff.mpr ⟨hvalue, ?_⟩
  have hhidden : (c.constants.contains x && (c.shadowed.find? x).all (i < ·)) = false := hhidden
  show (c.constants.contains x && (c.shadowed.find? x).all (j < ·)) = false
  cases hshadowed : c.shadowed.find? x with
  | none => rwa [hshadowed] at hhidden
  | some k =>
    rw [hshadowed] at hhidden
    simp only [Option.all_some, Bool.and_eq_false_iff, decide_eq_false_iff_not] at hhidden ⊢
    exact hhidden.imp_right fun hk => by omega

theorem isKnown_setVariable (c : Context) (x y : Text) (v : Float) :
    (c.setVariable x v).isKnown y = (decide (x = y) || c.isKnown y) := by
  show ((c.values.insert x v).contains y || c.constantVisible y) = _
  rw [Table.contains_insert, Bool.or_assoc]
  rfl

end Context

namespace SolveState

/-! ### Any order of equations -/

/-- The states to which equations lead from `s₀`: rounds begin, and equations are gone through, in any order and with
    any eliminations. -/
inductive Reaches (s₀ : SolveState) : SolveState → Prop
  | start : Reaches s₀ s₀
  | round {s : SolveState} (h : Reaches s₀ s) : Reaches s₀ { s with changed := false }
  | equation {s : SolveState} (h : Reaches s₀ s) (m : Eliminations) (eq : Equation) : Reaches s₀ (solveEquation m s eq)

section Reaches
variable {s₀ s : SolveState}

theorem Reaches.foldl (h : Reaches s₀ s) (m : Eliminations) (equations : List Equation) :
    Reaches s₀ (equations.foldl (solveEquation m) s) := by
  induction equations generalizing s with
  | nil => exact h
  | cons eq equations ih => exact ih (h.equation m eq)

theorem Reaches.solveRound (h : Reaches s₀ s) : Reaches s₀ s.solveRound := h.round.foldl _ _

theorem Reaches.solveRounds (h : Reaches s₀ s) (n : Nat) : Reaches s₀ (solveRounds n s) := by
  induction n generalizing s with
  | zero => exact h
  | succ n ih =>
    unfold SolveState.solveRounds
    dsimp only
    split
    · exact ih h.solveRound
    · exact h.solveRound

/-- The second pass ends in one of these states. -/
theorem reaches_solveEquations (s₀ : SolveState) : Reaches s₀ s₀.solveEquations := Reaches.start.solveRounds maxRounds

theorem Round.reaches {n : Nat} (h : Round s₀ n s) : Reaches s₀ s := by
  induction h with
  | first => exact .start
  | next h hn hchanged ih => exact ih.solveRound

/-- The second pass goes through these states. -/
theorem Turn.reaches {m : Eliminations} {eq : Equation} (h : Turn s₀ m eq s) : Reaches s₀ s := by
  obtain ⟨n, r, before, after, hround, -, -, rfl⟩ := h
  exact hround.reaches.round.foldl m before

theorem Reaches.follows (h : Reaches s₀ s) : Follows s₀ s := by
  induction h with
  | start => exact .refl s₀
  | round h ih => exact ih.trans ⟨.refl _, rfl⟩
  | equation h m eq ih => exact ih.trans (step_solveEquation m _ eq).follows

end Reaches

/-! ### What one equation adds -/

/-- A failure is on record only for a name that is not known from the line of the failure on. -/
def FailuresUnknown (s : SolveState) : Prop :=
  ∀ x f, s.failures.find? x = some f → ∀ line, f.line ≤ line → (s.contextAt line).isKnown x = false

section Step
variable {s s' : SolveState} {line : Nat}

/-- All names but one have the values that they had. -/
theorem Step.find?_eq (h : Step line s s') :
    ∃ x, ∀ y, y ≠ x → s'.context.values.find? y = s.context.values.find? y := by
  rcases h with ⟨u, lines, solved, changed, rfl⟩ | ⟨x, hx, t, ⟨u, rfl⟩, ⟨v, rfl⟩ | ⟨cause, rfl⟩⟩
  · exact ⟨[], fun y _ => rfl⟩
  · refine ⟨x, fun y hy => ?_⟩
    show (s.context.values.insert x v).find? y = s.context.values.find? y
    rw [Table.find?_insert, if_neg hy.symm]
  · exact ⟨x, fun y _ => rfl⟩

theorem FailuresUnknown.assign (h : FailuresUnknown s) (x : Text) (v : Float) : FailuresUnknown (s.assign x v) := by
  intro y f hf below hbelow
  have hf : (s.failures.erase x).find? y = some f := hf
  rw [Table.find?_erase] at hf
  split at hf
  · cases hf
  · rename_i hne
    show ((s.contextAt below).setVariable x v).isKnown y = false
    rw [Context.isKnown_setVariable, h y f hf below hbelow]
    simpa using hne

theorem FailuresUnknown.fail (h : FailuresUnknown s) {x : Text} (hx : (s.contextAt line).isKnown x = false)
    (cause : FailureCause) : FailuresUnknown (s.fail x cause line) := by
  intro y f hf below hbelow
  have hf : (s.failures.insert x ⟨cause, line⟩).find? y = some f := hf
  show (s.contextAt below).isKnown y = false
  rw [Table.find?_insert] at hf
  split at hf
  · rename_i heq
    cases hf
    exact heq ▸ Context.isKnown_setLine_of_le (Int.ofNat_le.mpr hbelow) hx
  · exact h y f hf below hbelow

theorem Step.failuresUnknown (h : Step line s s') (hunknown : FailuresUnknown s) : FailuresUnknown s' := by
  rcases h with ⟨u, lines, solved, changed, rfl⟩ | ⟨x, hx, t, ⟨u, rfl⟩, ⟨v, rfl⟩ | ⟨cause, rfl⟩⟩
  · exact hunknown
  · have hused : FailuresUnknown { s with used := u } := hunknown
    exact hused.assign x v
  · have hused : FailuresUnknown { s with used := u } := hunknown
    exact hused.fail hx cause

end Step

section Discovered
variable {text : Text} {c : Context} {settings : Settings} {s : SolveState}

theorem Reaches.failuresUnknown (h : Reaches (discovered text c settings) s) : FailuresUnknown s := by
  induction h with
  | start =>
    intro x f hf
    rw [failures_discovered] at hf
    cases hf
  | round h ih => exact ih
  | equation h m eq ih => exact (step_solveEquation m _ eq).failuresUnknown ih

/-- A name that the document gives keeps the value that the first pass has read for it. -/
theorem Reaches.find?_given (h : Reaches (discovered text c settings) s) {x : Text} (hx : s.given.contains x = true) :
    ∃ v, (discovered text c settings).context.values.find? x = some v ∧ s.context.values.find? x = some v := by
  have hfollows := h.follows
  rw [hfollows.given] at hx
  obtain ⟨v, hv⟩ := Option.isSome_iff_exists.mp (given_discovered text c settings hx)
  exact ⟨v, hv, hfollows.learns.values x v hv⟩

/-- Every equation of a second pass leaves the values that are there, gives a value to one name at most, and to none that
    the document gives; and no name has both a value and a failure. -/
theorem Reaches.only_adds (h : Reaches (discovered text c settings) s) (m : Eliminations) (eq : Equation) :
    (∀ x v, s.context.values.find? x = some v → (solveEquation m s eq).context.values.find? x = some v) ∧
    (∀ x y, s.context.hasVariable x = false → (solveEquation m s eq).context.hasVariable x = true →
      s.context.hasVariable y = false → (solveEquation m s eq).context.hasVariable y = true → x = y) ∧
    (∀ x, s.given.contains x = true → ∃ v, (discovered text c settings).context.values.find? x = some v ∧
      s.context.values.find? x = some v ∧ (solveEquation m s eq).context.values.find? x = some v) ∧
    ∀ x f, s.failures.find? x = some f → s.context.hasVariable x = false ∧
      ∀ line, f.line ≤ line → (s.contextAt line).find? x = none := by
  have hstep := step_solveEquation m s eq
  refine ⟨hstep.learns.values, ?_, ?_, ?_⟩
  · obtain ⟨z, hz⟩ := hstep.find?_eq
    have hnew (x : Text) (hnone : s.context.hasVariable x = false)
        (hsome : (solveEquation m s eq).context.hasVariable x = true) : x = z := by
      by_contra hne
      have hsame : (solveEquation m s eq).context.hasVariable x = s.context.hasVariable x :=
        congrArg Option.isSome (hz x hne)
      rw [hsame, hnone] at hsome
      cases hsome
    intro x y hx hx' hy hy'
    exact (hnew x hx hx').trans (hnew y hy hy').symm
  · intro x hx
    obtain ⟨v, hv, hv'⟩ := h.find?_given hx
    exact ⟨v, hv, hv', hstep.learns.values x v hv'⟩
  · intro x f hf
    have hunknown := h.failuresUnknown x f hf
    have hfree := (Context.isKnown_eq_false_iff.mp (hunknown f.line (Nat.le_refl _))).1
    refine ⟨?_, fun line hline => Context.find?_eq_none_iff.mpr (hunknown line hline)⟩
    have hfree : s.context.values.find? x = none := hfree
    simp [Context.hasVariable, Table.contains, hfree]

end Discovered

/-- A given name, a name that an equation gives a value, and one that fails, when one more equation names them. -/
theorem Reaches.only_adds_quotient :
    let start := discovered "a: 2\nb = a * a\nc = 1 / (a - a)".toList {} {}
    let s := start.solveEquations
    let s' := solveEquation Table.empty s ⟨"a = b + c".toList, false, 3, 3⟩
    Reaches start s ∧ s.given.contains ['a'] = true ∧
      (∃ v, start.context.values.find? ['a'] = some v ∧ s'.context.values.find? ['a'] = some v) ∧
      (∃ w, s.context.values.find? ['b'] = some w ∧ s'.context.values.find? ['b'] = some w) ∧
      ∃ f, s.failures.find? ['c'] = some f ∧ (s.contextAt f.line).find? ['c'] = none := by
  intro start s s'
  have ha : s.given.contains ['a'] = true := by decide +kernel
  have hb : s.context.hasVariable ['b'] = true := by decide +kernel
  have hc : s.failures.contains ['c'] = true := by decide +kernel
  have hreaches : Reaches start s := reaches_solveEquations start
  -- what follows holds of every state that is reached
  clear_value s
  obtain ⟨hkept, -, hgiven, hfailed⟩ := hreaches.only_adds Table.empty ⟨"a = b + c".toList, false, 3, 3⟩
  obtain ⟨v, hv, -, hv'⟩ := hgiven _ ha
  obtain ⟨w, hw⟩ := Option.isSome_iff_exists.mp hb
  obtain ⟨f, hf⟩ := Option.isSome_iff_exists.mp hc
  exact ⟨hreaches, ha, ⟨v, hv, hv'⟩, ⟨w, hw, hkept _ w hw⟩, f, hf, (hfailed _ f hf).2 f.line (Nat.le_refl _)⟩

end SolveState
end Worksheet
