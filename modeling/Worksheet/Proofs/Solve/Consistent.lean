import Worksheet.Proofs.Expr.Reads
import Worksheet.Proofs.Solve.Check
import Worksheet.Proofs.Solve.SecondPass

/-! A value that comes from a definition stays right. What an expression has read keeps its value to the end of the
    solve, but for the names of built-in values: an equation may give one of them another value afterwards. -/

namespace Worksheet

namespace Context
variable {c : Context} {name : Text} {v : Float}

/-- A variable whose name is no constant on the line is read with its value. -/
theorem result_read_of_value (hvalue : c.values.find? name = some v) (hvisible : c.constantVisible name = false) :
    (c.read name).result = .ok v := by
  have hfind : c.find? name = some (.ofVariable v) := by
    unfold find?
    rw [hvalue]
    cases c.constants.find? name with
    | none => rfl
    | some k => simp [hvisible]
  rw [result_read, hfind]
  rfl

end Context

namespace SolveState
variable {text : Text} {c : Context} {settings : Settings} {s : SolveState} {m : Eliminations} {eq : Equation}
  {left right : Expr} {d : Definition} {v : Float}

/-- A name that an equation defines gets a value from it only by the definition. -/
theorem value_of_definition (hgiven : ∀ name, s.given.contains name = true → s.context.hasVariable name = true)
    (hsides : Equation.parseSides eq.text = .ok ⟨left, some right⟩)
    (hd : Definition.ofSides? ⟨left, some right⟩ = some d) (hnone : s.context.values.find? d.name = none)
    (hv : (solveEquation m s eq).context.values.find? d.name = some v) :
    (s.contextAt eq.firstLine).isKnown d.name = false ∧ (d.expr.eval (s.contextAt eq.firstLine)).result = .ok v := by
  have hunchanged {s' : SolveState} (hs' : s'.context.values = s.context.values)
      (hsome : s'.context.values.find? d.name = some v) : False := by
    rw [hs', hnone] at hsome
    cases hsome
  rw [solveEquation_of_sides hgiven hsides, hd] at hv
  dsimp only at hv
  cases hknown : (s.contextAt eq.firstLine).isKnown d.name with
  | true =>
    rw [hknown, if_pos rfl] at hv
    split at hv
    · exact (hunchanged rfl hv).elim
    · rcases s.solveSides_cases eq.firstLine left right m with heq | ⟨x, hx, t, ⟨u, rfl⟩, ⟨w, heq⟩ | ⟨cause, heq⟩⟩
      · rw [heq] at hv
        exact (hunchanged rfl hv).elim
      · -- a constant is defined, and the value is that of another name
        have hne : x ≠ d.name := by
          rintro rfl
          simp [(Context.isUnknown_iff.mp hx).1] at hknown
        rw [heq] at hv
        have hv : (s.context.values.insert x w).find? d.name = some v := hv
        rw [Table.find?_insert, if_neg hne, hnone] at hv
        cases hv
      · rw [heq] at hv
        exact (hunchanged rfl hv).elim
  | false =>
    refine ⟨rfl, ?_⟩
    rw [hknown, if_neg Bool.false_ne_true] at hv
    split at hv
    · rcases s.evaluateDefinition_cases eq.firstLine d with
        ⟨t, e, ⟨u, rfl⟩, -, heq⟩ | ⟨t, w, ⟨u, rfl⟩, hw, ⟨-, heq⟩ | ⟨-, cause, heq⟩⟩
      · rw [heq] at hv
        exact (hunchanged rfl hv).elim
      · rw [heq] at hv
        have hv : (s.context.values.insert d.name w).find? d.name = some v := hv
        rw [Table.find?_insert, if_pos rfl] at hv
        rw [hw, Option.some.inj hv]
      · rw [heq] at hv
        exact (hunchanged rfl hv).elim
    · exact (hunchanged rfl hv).elim

/-- In a state that has only learnt values since, both sides of an equation have the value that was found by it. -/
theorem result_sides {final : SolveState}
    (hgiven : ∀ name, s.given.contains name = true → s.context.hasVariable name = true) (hbound : s.context.BoundKnown)
    (hsides : Equation.parseSides eq.text = .ok ⟨left, some right⟩)
    (hd : Definition.ofSides? ⟨left, some right⟩ = some d) (hnone : s.context.values.find? d.name = none)
    (hv : (solveEquation m s eq).context.values.find? d.name = some v)
    (hfinal : (solveEquation m s eq).context.Learns final.context)
    (hspared : (s.contextAt eq.firstLine).Spares (final.contextAt eq.firstLine) d.expr) :
    (left.eval (final.contextAt eq.firstLine)).result = .ok v ∧
      (right.eval (final.contextAt eq.firstLine)).result = .ok v := by
  obtain ⟨hunknown, hvalue⟩ := value_of_definition hgiven hsides hd hnone hv
  have hlearns := ((step_solveEquation m s eq).learns.trans hfinal).setLine eq.firstLine
  have hexpr : (d.expr.eval (final.contextAt eq.firstLine)).result = .ok v :=
    Expr.result_eval_of_learns hlearns hbound hspared hvalue
  have hname : ((Expr.var d.name).eval (final.contextAt eq.firstLine)).result = .ok v := by
    refine Context.result_read_of_value (hfinal.values d.name v hv) ?_
    exact (hlearns.constantVisible d.name).trans (Context.isKnown_eq_false_iff.mp hunknown).2
  rcases Definition.sides_ofSides hd with ⟨rfl, rfl⟩ | ⟨rfl, rfl⟩
  · exact ⟨hname, hexpr⟩
  · exact ⟨hexpr, hname⟩

/-- Sides with the same finite value are in balance. -/
theorem balanced_of_result (hsides : Equation.parseSides eq.text = .ok ⟨left, some right⟩) (hfinite : v.isFinite = true)
    (hleft : (left.eval (s.contextAt eq.firstLine)).result = .ok v)
    (hright : (right.eval (s.contextAt eq.firstLine)).result = .ok v) :
    ∃ new, s.checkBalance.issues = s.issues ++ new ∧ ∀ i ∈ new, i.isImbalance eq.firstLine eq.text = false := by
  obtain ⟨-, -, new, hissues, hnew⟩ := checked_checkBalance s
  refine ⟨new, hissues, ?_⟩
  intro i hmem
  refine Bool.eq_false_iff.mpr fun himbalance => ?_
  obtain ⟨l, r, rfl⟩ := Issue.isImbalance_iff.mp himbalance
  obtain ⟨left', right', hsides', hl, hr, hunbalanced⟩ := hnew _ _ _ _ hmem
  obtain ⟨rfl, hsome⟩ := Sides.mk.inj (Except.ok.inj (hsides.symm.trans hsides'))
  obtain rfl := Option.some.inj hsome
  obtain rfl := Except.ok.inj (hleft.symm.trans hl)
  obtain rfl := Except.ok.inj (hright.symm.trans hr)
  rw [balances_self _ hfinite] at hunbalanced
  cases hunbalanced

/-- The state of a solve in which all values are written and the equations are still to be checked. -/
def written (text : Text) (c : Context) (settings : Settings) : SolveState :=
  (discovered text c settings).solveEquations.writeOutputs

theorem issues_appendReferences (s : SolveState) : s.appendReferences.issues = s.issues := by
  unfold appendReferences
  dsimp only
  split <;> rfl

theorem issues_solve (text : Text) (c : Context) (settings : Settings) :
    (solve text c settings).issues = (written text c settings).checkBalance.issues := by
  unfold solve
  dsimp only
  unfold run written discovered
  rw [issues_appendReferences]

theorem Turn.learns_written (h : Turn (discovered text c settings) m eq s) :
    (solveEquation m s eq).context.Learns (written text c settings).context := by
  unfold written
  rw [context_writeOutputs]
  exact h.follows_solveEquations.learns

/-- When the second pass has found a finite value by a definition, every name keeps the value it was read with, except
    names of built-in values that are given another one. As long as the defining expression reads none that is given a
    value, both sides of the equation have the value found in the end, and the check does not report the equation. -/
theorem Turn.consistent (hbound : c.BoundKnown) (h : Turn (discovered text c settings) m eq s)
    (hsides : Equation.parseSides eq.text = .ok ⟨left, some right⟩)
    (hd : Definition.ofSides? ⟨left, some right⟩ = some d) (hnone : s.context.values.find? d.name = none)
    (hv : (solveEquation m s eq).context.values.find? d.name = some v) (hfinite : v.isFinite = true) :
    (∀ name w, ((s.contextAt eq.firstLine).read name).result = .ok w →
      ((((written text c settings).contextAt eq.firstLine).read name).result = .ok w ↔
        ((s.contextAt eq.firstLine).isKnown name = false →
          ∀ u, (written text c settings).context.values.find? name = some u → u = w))) ∧
    ((s.contextAt eq.firstLine).Spares ((written text c settings).contextAt eq.firstLine) d.expr →
      (left.eval ((written text c settings).contextAt eq.firstLine)).result = .ok v ∧
      (right.eval ((written text c settings).contextAt eq.firstLine)).result = .ok v ∧
      ∃ new, (solve text c settings).issues = (written text c settings).issues ++ new ∧
        ∀ i ∈ new, i.isImbalance eq.firstLine eq.text = false) := by
  have hfinal := h.learns_written
  have hstart := h.follows.learns.boundKnown (boundKnown_discovered text c settings hbound)
  rw [issues_solve]
  generalize written text c settings = final at hfinal ⊢
  constructor
  · intro name w hw
    exact (((step_solveEquation m s eq).learns.trans hfinal).setLine eq.firstLine).read_iff hstart hw
  · intro hspared
    obtain ⟨hleft, hright⟩ := result_sides (fun _ => h.given_known) hstart hsides hd hnone hv hfinal hspared
    exact ⟨hleft, hright, balanced_of_result hsides hfinite hleft hright⟩

/-- The equation `x = a * pi` in a document that leaves `pi` alone. -/
theorem consistent_product :
    ∃ m eq s, Turn (discovered "a: 2\nx = a * pi\nx->".toList {} {}) m eq s ∧ eq.text = "x = a * pi".toList ∧
      ((solveEquation m s eq).context.values.find? ['x']).any (·.isFinite) = true ∧
      ∃ new, (solve "a: 2\nx = a * pi\nx->".toList {} {}).issues =
          (written "a: 2\nx = a * pi\nx->".toList {} {}).issues ++ new ∧
        ∀ i ∈ new, i.isImbalance eq.firstLine eq.text = false := by
  have hfind : Equation.find (discovered "a: 2\nx = a * pi\nx->".toList {} {}).lines =
      [⟨"x = a * pi".toList, false, 1, 1⟩] := by rfl
  have hsides : Equation.parseSides "x = a * pi".toList =
      .ok ⟨.var ['x'], some (.binary .multiply (.var ['a']) (.var ['p', 'i']))⟩ := by rfl
  have hpi : ((written "a: 2\nx = a * pi\nx->".toList {} {}).contextAt 1).isKnown ['p', 'i'] = false := by
    decide +kernel
  obtain ⟨m, s, hturn, hnone, hsome⟩ : ∃ m s,
      Turn (discovered "a: 2\nx = a * pi\nx->".toList {} {}) m ⟨"x = a * pi".toList, false, 1, 1⟩ s ∧
      s.context.values.find? ['x'] = none ∧
      ((solveEquation m s ⟨"x = a * pi".toList, false, 1, 1⟩).context.values.find? ['x']).any (·.isFinite) = true :=
    ⟨_, _, turn_first hfind, by decide +kernel, by decide +kernel⟩
  obtain ⟨v, hv, hfinite⟩ := (Option.any_eq_true _ _).mp hsome
  have hbound : ({} : Context).BoundKnown := fun _ h => nomatch h
  refine ⟨m, _, s, hturn, rfl, hsome, ((hturn.consistent hbound hsides rfl hnone hv hfinite).2 ?_).2.2⟩
  -- of the two names that are read only `pi` is that of a built-in value, and it is given none
  intro name hread hbuiltin hunknown
  cases hread with
  | left h =>
    cases h
    exact absurd hbuiltin (by decide +kernel)
  | right h =>
    cases h
    exact hpi

/-- The equation `x = pi` reads the built-in value. An equation behind it gives `pi` a value: the name does not keep the
    one that was read, and the check finds that the sides differ. -/
theorem not_consistent :
    (∃ m eq s w u, Turn (discovered "a: 3\nx = pi\npi = a".toList {} {}) m eq s ∧ eq.text = "x = pi".toList ∧
      s.context.values.find? ['x'] = none ∧
      ((solveEquation m s eq).context.values.find? ['x']).any (·.isFinite) = true ∧
      ((s.contextAt eq.firstLine).read ['p', 'i']).result = .ok w ∧
      (((written "a: 3\nx = pi\npi = a".toList {} {}).contextAt eq.firstLine).read ['p', 'i']).result = .ok u ∧ u ≠ w) ∧
    ∃ m eq s, Turn (discovered "a: -1\nx = pi\npi = sqrt(a)".toList {} {}) m eq s ∧ eq.text = "x = pi".toList ∧
      s.context.values.find? ['x'] = none ∧
      ((solveEquation m s eq).context.values.find? ['x']).any (·.isFinite) = true ∧
      ∃ i ∈ (solve "a: -1\nx = pi\npi = sqrt(a)".toList {} {}).issues, i.isImbalance eq.firstLine eq.text = true := by
  constructor
  · have hfind : Equation.find (discovered "a: 3\nx = pi\npi = a".toList {} {}).lines =
        [⟨"x = pi".toList, false, 1, 1⟩, ⟨"pi = a".toList, false, 2, 2⟩] := by rfl
    obtain ⟨m, s, hturn, hnone, hsome, hread, hreread, hne⟩ : ∃ m s,
        Turn (discovered "a: 3\nx = pi\npi = a".toList {} {}) m ⟨"x = pi".toList, false, 1, 1⟩ s ∧
        s.context.values.find? ['x'] = none ∧
        ((solveEquation m s ⟨"x = pi".toList, false, 1, 1⟩).context.values.find? ['x']).any (·.isFinite) = true ∧
        ((s.contextAt 1).read ['p', 'i']).result.isOk = true ∧
        (((written "a: 3\nx = pi\npi = a".toList {} {}).contextAt 1).read ['p', 'i']).result.isOk = true ∧
        valueOrNan (((written "a: 3\nx = pi\npi = a".toList {} {}).contextAt 1).read ['p', 'i']) ≠
          valueOrNan ((s.contextAt 1).read ['p', 'i']) :=
      ⟨_, _, turn_first hfind, by decide +kernel, by decide +kernel, by decide +kernel, by decide +kernel, by decide +kernel⟩
    exact ⟨m, _, s, _, _, hturn, rfl, hnone, hsome, result_of_isOk hread, result_of_isOk hreread, hne⟩
  · have hfind : Equation.find (discovered "a: -1\nx = pi\npi = sqrt(a)".toList {} {}).lines =
        [⟨"x = pi".toList, false, 1, 1⟩, ⟨"pi = sqrt(a)".toList, false, 2, 2⟩] := by rfl
    obtain ⟨m, s, hturn, hnone, hsome⟩ : ∃ m s,
        Turn (discovered "a: -1\nx = pi\npi = sqrt(a)".toList {} {}) m ⟨"x = pi".toList, false, 1, 1⟩ s ∧
        s.context.values.find? ['x'] = none ∧
        ((solveEquation m s ⟨"x = pi".toList, false, 1, 1⟩).context.values.find? ['x']).any (·.isFinite) = true :=
      ⟨_, _, turn_first hfind, by decide +kernel, by decide +kernel⟩
    have hreported : (solve "a: -1\nx = pi\npi = sqrt(a)".toList {} {}).issues.any
        (·.isImbalance 1 "x = pi".toList) = true := by decide +kernel
    exact ⟨m, _, s, hturn, rfl, hnone, hsome, List.any_eq_true.mp hreported⟩

end SolveState
end Worksheet
