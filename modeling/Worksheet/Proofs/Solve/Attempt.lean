import Worksheet.Proofs.Solve.SecondPass

/-! Which equations with one unknown are attempted. An equation that makes a definition is left alone as long as the
    defined name has no value and the unknown stands in the other side. -/

namespace Worksheet

namespace Definition
variable {left right : Expr} {d : Definition}

/-- A definition has the names of the sides it is made of. -/
theorem names_ofSides (h : ofSides? ⟨left, some right⟩ = some d) (name : Text) :
    (∃ e ∈ [left, right], name ∈ e.names) ↔ name = d.name ∨ name ∈ d.expr.names := by
  rcases sides_ofSides h with ⟨rfl, rfl⟩ | ⟨rfl, rfl⟩
  · simp [Expr.names]
  · simp [Expr.names, or_comm]

end Definition

namespace SolveState

section Attempt
variable {s : SolveState} {m : Eliminations} {eq : Equation} {left right : Expr} {x : Text} {line : Nat}

theorem settled_solveSides (h : ((s.contextAt line).unknowns [left, right]).names = [x]) :
    (s.solveSides line left right m).Settled x := by
  unfold solveSides
  rw [h]
  exact (s.decides_solveFor line x left right).settled

/-- The definition that an equation makes is closed unless the only unknown stands in its expression. -/
theorem closed_iff {c : Context} {d : Definition} (hx : (c.unknowns [left, right]).names = [x])
    (hd : Definition.ofSides? ⟨left, some right⟩ = some d) : (c.unknowns [d.expr]).names = [] ↔ x ∉ d.expr.names := by
  obtain ⟨-, hunknown, honly⟩ := Context.unknowns_eq_singleton.mp hx
  rw [Context.unknowns_eq_nil]
  constructor
  · intro hclosed hmem
    simp [hclosed d.expr (List.mem_singleton_self _) x hmem] at hunknown
  · intro hmem e he name hname
    obtain rfl := List.mem_singleton.mp he
    cases hcase : c.isUnknown name with
    | false => rfl
    | true =>
      obtain ⟨e, he, hname'⟩ := (Definition.names_ofSides hd name).mpr (.inr hname)
      exact absurd (honly e he name hname' hcase ▸ hname) hmem

theorem settled_solveEquation (hgiven : ∀ name, s.given.contains name = true → s.context.hasVariable name = true)
    (hsides : Equation.parseSides eq.text = .ok ⟨left, some right⟩)
    (hx : ((s.contextAt eq.firstLine).unknowns [left, right]).names = [x]) :
    (solveEquation m s eq).Settled x ↔
      (∀ d, Definition.ofSides? ⟨left, some right⟩ = some d →
        (s.contextAt eq.firstLine).isKnown d.name = true ∨ x ∉ d.expr.names) ∨ s.failures.contains x = true := by
  obtain ⟨hnamed, hunknown, honly⟩ := Context.unknowns_eq_singleton.mp hx
  have hnone : s.context.hasVariable x = false := (Bool.or_eq_false_iff.mp (Context.isUnknown_iff.mp hunknown).1).1
  rw [solveEquation_of_sides hgiven hsides]
  cases hd : Definition.ofSides? ⟨left, some right⟩ with
  | none => simpa using settled_solveSides hx
  | some d =>
    have hclosed := closed_iff hx hd
    dsimp only
    cases hknown : (s.contextAt eq.firstLine).isKnown d.name with
    | true =>
      -- the defined name is not the unknown, so the unknown stands in the expression
      have hmem : x ∈ d.expr.names := by
        refine ((Definition.names_ofSides hd x).mp hnamed).resolve_left ?_
        rintro rfl
        simp [(Context.isUnknown_iff.mp hunknown).1] at hknown
      rw [if_pos rfl, if_neg (by simpa [hclosed] using hmem)]
      simp [hknown, settled_solveSides hx]
    | false =>
      rw [if_neg Bool.false_ne_true]
      by_cases hmem : x ∈ d.expr.names
      · -- nothing is done, and nothing is known of the unknown but an older failure
        rw [if_neg (by simpa [hclosed] using hmem)]
        simp [Settled, hknown, hmem, hnone]
      · rw [if_pos (hclosed.mpr hmem)]
        obtain rfl := ((Definition.names_ofSides hd x).mp hnamed).resolve_right hmem
        simpa [hmem] using (s.decides_evaluateDefinition eq.firstLine d).settled

/-- An equation whose only unknown is `x` is attempted, except in one case: it is read as the definition of a name
    without a value, and `x` stands in the defining expression. Then only an older failure can be on record. -/
theorem Turn.settled_iff {text : Text} {c : Context} {settings : Settings}
    (h : Turn (discovered text c settings) m eq s) (hsides : Equation.parseSides eq.text = .ok ⟨left, some right⟩)
    (hx : ((s.contextAt eq.firstLine).unknowns [left, right]).names = [x]) :
    (solveEquation m s eq).Settled x ↔
      (∀ d, Definition.ofSides? ⟨left, some right⟩ = some d →
        (s.contextAt eq.firstLine).isKnown d.name = true ∨ x ∉ d.expr.names) ∨ s.failures.contains x = true :=
  settled_solveEquation (fun _ => h.given_known) hsides hx

end Attempt

/-- The equation `a = x + x` is attempted, since the name that it would define has a value. -/
theorem settled_sum :
    ∃ m eq s, Turn (discovered "a: 2\na = x + x\nx->".toList {} {}) m eq s ∧
      Equation.parseSides eq.text = .ok ⟨.var ['a'], some (.binary .add (.var ['x']) (.var ['x']))⟩ ∧
      ((s.contextAt eq.firstLine).unknowns [.var ['a'], .binary .add (.var ['x']) (.var ['x'])]).names = [['x']] ∧
      (solveEquation m s eq).Settled ['x'] := by
  have hfind : Equation.find (discovered "a: 2\na = x + x\nx->".toList {} {}).lines =
      [⟨"a = x + x".toList, false, 1, 1⟩] := by rfl
  have hturn := turn_first hfind
  have hsides : Equation.parseSides "a = x + x".toList =
      .ok ⟨.var ['a'], some (.binary .add (.var ['x']) (.var ['x']))⟩ := by rfl
  have hx : (((discovered "a: 2\na = x + x\nx->".toList {} {}).contextAt 1).unknowns
      [.var ['a'], .binary .add (.var ['x']) (.var ['x'])]).names = [['x']] := by decide +kernel
  have hknown : ((discovered "a: 2\na = x + x\nx->".toList {} {}).contextAt 1).isKnown ['a'] = true := by
    decide +kernel
  refine ⟨_, _, _, hturn, hsides, hx, (hturn.settled_iff hsides hx).mpr (.inl ?_)⟩
  intro d hd
  obtain rfl := Option.some.inj hd
  exact .inl hknown

/-- The equation `x = a - x` has one unknown and is passed over: nothing is found for `x`, and nothing says why. -/
theorem not_settled_difference :
    ∃ m eq s, Turn (discovered "a: 2\nx = a - x\nx->".toList {} {}) m eq s ∧
      Equation.parseSides eq.text = .ok ⟨.var ['x'], some (.binary .subtract (.var ['a']) (.var ['x']))⟩ ∧
      ((s.contextAt eq.firstLine).unknowns [.var ['x'], .binary .subtract (.var ['a']) (.var ['x'])]).names = [['x']] ∧
      ¬(solveEquation m s eq).Settled ['x'] := by
  have hfind : Equation.find (discovered "a: 2\nx = a - x\nx->".toList {} {}).lines =
      [⟨"x = a - x".toList, false, 1, 1⟩] := by rfl
  have hturn := turn_first hfind
  have hsides : Equation.parseSides "x = a - x".toList =
      .ok ⟨.var ['x'], some (.binary .subtract (.var ['a']) (.var ['x']))⟩ := by rfl
  have hx : (((discovered "a: 2\nx = a - x\nx->".toList {} {}).contextAt 1).unknowns
      [.var ['x'], .binary .subtract (.var ['a']) (.var ['x'])]).names = [['x']] := by decide +kernel
  have hfailures : (discovered "a: 2\nx = a - x\nx->".toList {} {}).failures.contains ['x'] = false := by
    decide +kernel
  refine ⟨_, _, _, hturn, hsides, hx, fun hsettled => ?_⟩
  rcases (settled_solveEquation (fun _ => hturn.given_known) hsides hx).mp hsettled with hfree | hfailed
  · -- the definition is that of `x` itself, by an expression in which `x` stands
    have hunknown := (Context.unknowns_eq_singleton.mp hx).2.1
    rcases hfree _ rfl with hknown | hnot
    · exact Bool.false_ne_true ((Context.isUnknown_iff.mp hunknown).1.symm.trans hknown)
    · exact hnot (by simp [Expr.names])
  · exact Bool.false_ne_true (hfailures.symm.trans hfailed)

end SolveState
end Worksheet
