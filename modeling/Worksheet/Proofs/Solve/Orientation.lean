import Worksheet.Proofs.Solve.SecondPass

/-! Definitions in both orientations. A name that is unknown is given the value of the other side, whichever side it
    stands on, unless another name by itself stands on the left: that one is taken for the defined name, and the
    unknown name gets what the search for a root finds, or nothing. -/

namespace Worksheet.SolveState

/-- On the way from `s` to `s'`, `x` is given the value `v`, or a failure is recorded if its limits do not admit `v`. -/
def Obeys (s s' : SolveState) (x : Text) (v : Float) : Prop :=
  if s.admits x v = true then s'.context.values.find? x = some v else s'.failures.contains x = true

section Orientation
variable {s : SolveState} {m : Eliminations} {eq : Equation} {e left right : Expr} {x : Text} {v : Float} {line : Nat}

/-- A definition by an expression with a value. -/
theorem obeys_evaluateDefinition {d : Definition} (hv : (d.expr.eval (s.contextAt line)).result = .ok v) :
    Obeys s (s.evaluateDefinition line d) d.name v := by
  unfold Obeys
  rcases s.evaluateDefinition_cases line d with
    ⟨t, p, -, herror, -⟩ | ⟨t, w, -, hw, hcase⟩
  · cases hv.symm.trans herror
  · obtain rfl := Except.ok.inj (hw.symm.trans hv)
    rcases hcase with ⟨hadmits, heq⟩ | ⟨hadmits, cause, heq⟩
    · rw [if_pos hadmits, heq]
      show (t.context.values.insert d.name w).find? d.name = some w
      rw [Table.find?_insert, if_pos rfl]
    · rw [if_neg (by simp [hadmits]), heq]
      exact contains_fail t d.name cause line

/-- A state obeys by itself only where the value is not admitted. -/
theorem obeys_self (hnone : s.context.values.find? x = none) :
    Obeys s s x v ↔ s.admits x v = false ∧ s.failures.contains x = true := by
  unfold Obeys
  cases s.admits x v <;> simp [hnone]

/-- Which definition is read off an equation between a name and an expression, if the other side is not a name that
    comes first. -/
theorem ofSides_of_name (h : left = .var x ∧ right = e ∨ left = e ∧ right = .var x) :
    (∃ y, y ≠ x ∧ left = .var y ∧ e = .var y ∧ right = .var x) ∨
      (∀ y, left = .var y → y = x) ∧ Definition.ofSides? ⟨left, some right⟩ = some ⟨x, e⟩ := by
  rcases h with ⟨rfl, rfl⟩ | ⟨rfl, rfl⟩
  · refine .inr ⟨?_, rfl⟩
    rintro y heq
    exact (Expr.var.inj heq).symm
  · cases left with
    | var y =>
      by_cases hyx : y = x
      · subst hyx
        exact .inr ⟨fun z hz => (Expr.var.inj hz).symm, rfl⟩
      · exact .inl ⟨y, hyx, rfl, rfl, rfl⟩
    | number w b => exact .inr ⟨fun _ h => (nomatch h), rfl⟩
    | unary op e => exact .inr ⟨fun _ h => (nomatch h), rfl⟩
    | binary op l r => exact .inr ⟨fun _ h => (nomatch h), rfl⟩
    | call f args => exact .inr ⟨fun _ h => (nomatch h), rfl⟩

/-- Of two names the one on the left is taken for the defined one. The other one, which is unknown, is searched for
    only if that one has a value. -/
theorem solveEquation_of_names {y : Text}
    (hgiven : ∀ name, s.given.contains name = true → s.context.hasVariable name = true)
    (hsides : Equation.parseSides eq.text = .ok ⟨.var y, some (.var x)⟩)
    (hx : (s.contextAt eq.firstLine).isUnknown x = true)
    (hy : ((s.contextAt eq.firstLine).unknowns [.var y]).names = []) :
    solveEquation m s eq =
      if (s.contextAt eq.firstLine).isKnown y = true then s.solveFor eq.firstLine x (.var y) (.var x) else s := by
  have hopen : ((s.contextAt eq.firstLine).unknowns [.var x]).names ≠ [] := by
    intro hclosed
    have hfalse := Context.unknowns_eq_nil.mp hclosed (.var x) (List.mem_singleton_self _) x (List.mem_singleton_self _)
    simp [hx] at hfalse
  have hone : ((s.contextAt eq.firstLine).unknowns [.var y, .var x]).names = [x] := by
    refine Context.unknowns_eq_singleton.mpr ⟨⟨.var x, by simp, by simp [Expr.names]⟩, hx, ?_⟩
    intro e he name hname hunknown
    rcases List.mem_pair.mp he with rfl | rfl
    · have hfalse := Context.unknowns_eq_nil.mp hy (.var y) (List.mem_singleton_self _) name hname
      simp [hunknown] at hfalse
    · exact List.mem_singleton.mp hname
  have hsolve : s.solveSides eq.firstLine (.var y) (.var x) m = s.solveFor eq.firstLine x (.var y) (.var x) := by
    unfold solveSides
    rw [hone]
  rw [solveEquation_of_sides hgiven hsides]
  show (if (s.contextAt eq.firstLine).isKnown y = true then
      if ((s.contextAt eq.firstLine).unknowns [.var x]).names = [] then s
      else s.solveSides eq.firstLine (.var y) (.var x) m
    else if ((s.contextAt eq.firstLine).unknowns [.var x]).names = [] then s.evaluateDefinition eq.firstLine ⟨y, .var x⟩
    else s) = _
  rw [if_neg hopen, if_neg hopen, hsolve]

/-- In the second pass over a document an equation between an unknown name and an expression without unknowns gives
    the name the value of the expression, in both orientations, but for one case: a name by itself that stands on the
    left is taken for the defined one. With a value of its own it leaves the unknown to the search for a root, without
    one to nothing. -/
theorem Turn.obeys_iff {text : Text} {c : Context} {settings : Settings}
    (h : Turn (discovered text c settings) m eq s) (hsides : Equation.parseSides eq.text = .ok ⟨left, some right⟩)
    (hname : left = .var x ∧ right = e ∨ left = e ∧ right = .var x)
    (hx : (s.contextAt eq.firstLine).isUnknown x = true)
    (he : ((s.contextAt eq.firstLine).unknowns [e]).names = [])
    (hv : (e.eval (s.contextAt eq.firstLine)).result = .ok v) :
    Obeys s (solveEquation m s eq) x v ↔ ∀ y, left = .var y → y ≠ x →
      if (s.contextAt eq.firstLine).isKnown y = true then Obeys s (s.solveFor eq.firstLine x left right) x v
      else s.admits x v = false ∧ s.failures.contains x = true := by
  obtain ⟨hunknown, -⟩ := Context.isUnknown_iff.mp hx
  rcases ofSides_of_name hname with ⟨y, hyx, rfl, rfl, rfl⟩ | ⟨hleft, hd⟩
  · have hforall (P : Text → Prop) : (∀ z, Expr.var y = .var z → z ≠ x → P z) ↔ P y := by
      constructor
      · intro h
        exact h y rfl hyx
      · intro h z hz _
        obtain rfl := Expr.var.inj hz
        exact h
    rw [hforall, solveEquation_of_names (fun _ => h.given_known) hsides hx he]
    cases (s.contextAt eq.firstLine).isKnown y with
    | true => rfl
    | false => exact obeys_self (Context.isKnown_eq_false_iff.mp hunknown).1
  · rw [solveEquation_of_sides (fun _ => h.given_known) hsides, hd]
    dsimp only
    rw [hunknown, if_neg Bool.false_ne_true, if_pos he]
    refine iff_of_true (obeys_evaluateDefinition (d := ⟨x, e⟩) hv) ?_
    intro y hy hyx
    exact absurd (hleft y hy) hyx

end Orientation

/-- The equation `k * k = x` with a shared constant `k`. -/
theorem obeys_product :
    ∃ m eq s, Turn (discovered "k * k = x\nx->".toList { constants := Table.insert ∅ ['k'] { value := 2.0 } } {}) m eq s ∧
      Equation.parseSides eq.text = .ok ⟨.binary .multiply (.var ['k']) (.var ['k']), some (.var ['x'])⟩ ∧
      Obeys s (solveEquation m s eq) ['x'] (2.0 * 2.0) := by
  have hfind : Equation.find (discovered "k * k = x\nx->".toList
      { constants := Table.insert ∅ ['k'] { value := 2.0 } } {}).lines = [⟨"k * k = x".toList, false, 0, 0⟩] := by rfl
  have hturn := turn_first hfind
  have hsides : Equation.parseSides "k * k = x".toList =
      .ok ⟨.binary .multiply (.var ['k']) (.var ['k']), some (.var ['x'])⟩ := by rfl
  have hx : ((discovered "k * k = x\nx->".toList
      { constants := Table.insert ∅ ['k'] { value := 2.0 } } {}).contextAt 0).isUnknown ['x'] = true := by decide +kernel
  have he : (((discovered "k * k = x\nx->".toList { constants := Table.insert ∅ ['k'] { value := 2.0 } } {}).contextAt
      0).unknowns [.binary .multiply (.var ['k']) (.var ['k'])]).names = [] := by decide +kernel
  have hv : ((Expr.binary .multiply (.var ['k']) (.var ['k'])).eval ((discovered "k * k = x\nx->".toList
      { constants := Table.insert ∅ ['k'] { value := 2.0 } } {}).contextAt 0)).result = .ok (2.0 * 2.0) := by rfl
  exact ⟨_, _, _, hturn, hsides, (hturn.obeys_iff hsides (.inr ⟨rfl, rfl⟩) hx he hv).mpr fun _ h => nomatch h⟩

/-- The equation `a = x`, where `a` has a value that the limits of `x` admit: no value for `x` is found. -/
theorem not_obeys_known :
    ∃ m eq s v, Turn (discovered "a: 5\na = x\nx [5:5]->".toList {} {}) m eq s ∧
      Equation.parseSides eq.text = .ok ⟨.var ['a'], some (.var ['x'])⟩ ∧
      (s.contextAt eq.firstLine).isUnknown ['x'] = true ∧ ((s.contextAt eq.firstLine).unknowns [.var ['a']]).names = [] ∧
      ((Expr.var ['a']).eval (s.contextAt eq.firstLine)).result = .ok v ∧ s.admits ['x'] v = true ∧
      (solveEquation m s eq).context.hasVariable ['x'] = false ∧ ¬Obeys s (solveEquation m s eq) ['x'] v := by
  have hfind : Equation.find (discovered "a: 5\na = x\nx [5:5]->".toList {} {}).lines =
      [⟨"a = x".toList, false, 1, 1⟩] := by rfl
  have hsides : Equation.parseSides "a = x".toList = .ok ⟨.var ['a'], some (.var ['x'])⟩ := by rfl
  obtain ⟨m, s, hturn, hx, he, hvalue, hadmits, hnone⟩ : ∃ m s,
      Turn (discovered "a: 5\na = x\nx [5:5]->".toList {} {}) m ⟨"a = x".toList, false, 1, 1⟩ s ∧
      (s.contextAt 1).isUnknown ['x'] = true ∧ ((s.contextAt 1).unknowns [.var ['a']]).names = [] ∧
      ((Expr.var ['a']).eval (s.contextAt 1)).result.isOk = true ∧
      s.admits ['x'] (valueOrNan ((Expr.var ['a']).eval (s.contextAt 1))) = true ∧
      (solveEquation m s ⟨"a = x".toList, false, 1, 1⟩).context.hasVariable ['x'] = false :=
    ⟨_, _, turn_first hfind, by decide +kernel, by decide +kernel, by decide +kernel, by decide +kernel, by decide +kernel⟩
  refine ⟨m, _, s, _, hturn, hsides, hx, he, result_of_isOk hvalue, hadmits, hnone, fun hobeys => ?_⟩
  unfold Obeys at hobeys
  rw [if_pos hadmits] at hobeys
  rw [Context.hasVariable, Table.contains, hobeys] at hnone
  cases hnone

end Worksheet.SolveState
