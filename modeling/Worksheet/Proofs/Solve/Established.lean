import Worksheet.Proofs.Expr.Substitution
import Worksheet.Proofs.Solve.Chains
import Worksheet.Proofs.Solve.Completions
import Worksheet.Proofs.Solve.Knowledge

/-! What the value of a completed equation rests on. Before the left side is evaluated, definitions from other lines are
    put in place of names without a value, whether or not these get the values of their definitions afterwards. -/

namespace Worksheet

/-! ### Involved names -/

/-- A name is involved in the elimination from `e` on a line: it stands in `e`, or in the definition of a name that is
    involved and defined on another line. -/
inductive Eliminations.Involves (m : Eliminations) (line : Nat) (e : Expr) : Text → Prop
  | name {x : Text} (hx : x ∈ e.names) : Involves m line e x
  | definition {x y : Text} {d : Expr} (hx : Involves m line e x) (hd : m.elsewhere line x = some d) (hy : y ∈ d.names) :
      Involves m line e y

namespace Eliminations
variable {m : Eliminations} {line n : Nat} {e : Expr} {x : Text} {c : Context}

/-- All names that an elimination leaves are involved. -/
theorem Involves.of_mem_repeat (h : x ∈ (Nat.repeat (Expr.substitute (m.elsewhere line)) n e).names) :
    m.Involves line e x := by
  induction n generalizing x with
  | zero => exact .name h
  | succ n ih =>
    obtain ⟨y, hy, hx⟩ := (Expr.mem_names_substitute _).mp h
    rcases standsFor_iff.mp hx with ⟨-, rfl⟩ | ⟨d, hd, hmem⟩
    · exact ih hy
    · exact .definition (ih hy) hd hmem

/-- A name without a definition on another line is left where it is. -/
theorem mem_repeat_of_none (hx : x ∈ e.names) (hnone : m.elsewhere line x = none) :
    x ∈ (Nat.repeat (Expr.substitute (m.elsewhere line)) n e).names := mem_repeat_of_le hnone (Nat.zero_le n) hx

/-- An elimination keeps the result if the involved names are read with the values of their definitions. -/
theorem result_eliminate (h : ∀ x d, m.Involves line e x → m.elsewhere line x = some d →
      ∃ v, (c.lookup x).result = .ok (some v) ∧ (d.eval c).result = .ok v) :
    ((m.eliminate line e).eval c).result = (e.eval c).result := by
  unfold eliminate
  generalize rounds = n
  induction n with
  | zero => rfl
  | succ n ih => exact (Context.result_substitute_of_names fun x hx d => h x d (.of_mem_repeat hx)).trans ih

end Eliminations

namespace Context
variable {c : Context} {x : Text} {v : Float}

theorem isKnown_of_lookup (h : (c.lookup x).result = .ok (some v)) : c.isKnown x = true := by
  refine (Bool.eq_false_or_eq_true _).resolve_right fun hunknown => ?_
  rw [result_lookup, find?_eq_none_iff.mpr hunknown] at h
  cases h

/-- A name that is known stays known when values are learnt. -/
theorem Learns.isKnown {c' : Context} (h : c.Learns c') (hx : c.isKnown x = true) : c'.isKnown x = true := by
  rcases Bool.or_eq_true_iff.mp hx with hvalue | hvisible
  · obtain ⟨v, hv⟩ := Option.isSome_iff_exists.mp hvalue
    exact Bool.or_eq_true_iff.mpr (.inl (Option.isSome_iff_exists.mpr ⟨v, h.values x v hv⟩))
  · exact Bool.or_eq_true_iff.mpr (.inr ((h.constantVisible x).trans hvisible))

end Context

namespace SolveState
open Equation
variable {text : Text} {c : Context} {settings : Settings} {s : SolveState} {m : Eliminations} {eq : Equation}
  {left : Expr} {v : Float}

/-- The value that an equation is completed with lasts. If every involved name that has been eliminated is read in the end
    with the value of its definition, the left side has this value in the end, and no eliminated name has failed; and if
    besides no unknown name was left by the elimination, then every variable of the left side is known in the end or
    stands for a built-in value. -/
theorem Turn.established (hbound : c.BoundKnown) (h : Turn (discovered text c settings) m eq s)
    (hbraced : eq.braced = false) (hsides : parseSides eq.text = .ok ⟨left, none⟩)
    (hvalue : (s.evaluate eq.firstLine (m.eliminate eq.firstLine left)).1 = .ok v)
    (hspared : (s.contextAt eq.firstLine).Spares ((discovered text c settings).solveEquations.contextAt eq.firstLine)
      (m.eliminate eq.firstLine left))
    (hhonoured : ∀ x d, m.Involves eq.firstLine left x → m.elsewhere eq.firstLine x = some d → ∃ w,
      (((discovered text c settings).solveEquations.contextAt eq.firstLine).lookup x).result = .ok (some w) ∧
        (d.eval ((discovered text c settings).solveEquations.contextAt eq.firstLine)).result = .ok w) :
    fillAfterEquals (s.lineAt eq.firstLine) (settings.write v) =
        some ((discovered text c settings).solveEquations.lineAt eq.firstLine) ∧
      (left.eval ((discovered text c settings).solveEquations.contextAt eq.firstLine)).result = .ok v ∧
      (∀ x f, (discovered text c settings).solveEquations.failures.find? x = some f → f.line ≤ eq.firstLine →
        m.Involves eq.firstLine left x → m.elsewhere eq.firstLine x = none) ∧
      (((s.contextAt eq.firstLine).unknowns [m.eliminate eq.firstLine left]).names = [] → ∀ x ∈ left.names,
        ((discovered text c settings).solveEquations.contextAt eq.firstLine).isKnown x = true ∨
          Context.namesBuiltin x = true) := by
  obtain ⟨line, line', -, -, hline, hfill, hfinal, -⟩ := h.completed hbraced hsides hvalue
  have hlearns := ((step_solveEquation m s eq).learns.trans h.follows_solveEquations.learns).setLine eq.firstLine
  have hstart := h.follows.learns.boundKnown (boundKnown_discovered text c settings hbound)
  have hfailures := (reaches_solveEquations (discovered text c settings)).failuresUnknown
  have hline₀ : s.lineAt eq.firstLine = line := congrArg (Option.getD · []) hline
  have hline₁ : (discovered text c settings).solveEquations.lineAt eq.firstLine = line' :=
    congrArg (Option.getD · []) hfinal
  generalize (discovered text c settings).solveEquations = final at *
  have heliminated {x : Text} {d : Expr} (hx : m.Involves eq.firstLine left x)
      (hd : m.elsewhere eq.firstLine x = some d) : (final.contextAt eq.firstLine).isKnown x = true := by
    obtain ⟨w, hw, -⟩ := hhonoured x d hx hd
    exact Context.isKnown_of_lookup hw
  refine ⟨by rw [hline₀, hline₁, hfill], ?_, fun x f hf hbelow hx => ?_, fun hclosed x hx => ?_⟩
  · rw [← Eliminations.result_eliminate hhonoured]
    exact Expr.result_eval_of_learns hlearns hstart hspared hvalue
  · refine Option.eq_none_iff_forall_ne_some.mpr fun d hd => ?_
    have hunknown := hfailures x f hf eq.firstLine hbelow
    rw [heliminated hx hd] at hunknown
    cases hunknown
  · cases hd : m.elsewhere eq.firstLine x with
    | some d => exact .inl (heliminated (.name hx) hd)
    | none =>
      have hmem := Eliminations.mem_repeat_of_none (n := Eliminations.rounds) hx hd
      have hleft := Context.unknowns_eq_nil.mp hclosed _ (List.mem_singleton_self _) x hmem
      cases hbuiltin : Context.namesBuiltin x with
      | true => exact .inr rfl
      | false =>
        have hknown : (s.contextAt eq.firstLine).isKnown x = true := by
          simpa [Context.isUnknown, hbuiltin] using hleft
        exact .inl (hlearns.isKnown hknown)

/-- In `x * x =` the definition `x = a` from the line below is put in place of `x`, which gets the value of `a`
    afterwards. -/
theorem established_square :
    ∃ m eq s v, Turn (discovered "a: 2\nx * x =\nx = a".toList {} {}) m eq s ∧ eq.text = "x * x =".toList ∧
      (s.contextAt 1).isKnown ['x'] = false ∧
      (discovered "a: 2\nx * x =\nx = a".toList {} {}).solveEquations.lineAt 1 = "x * x = 4".toList ∧
      ((Expr.binary .multiply (.var ['x']) (.var ['x'])).eval
        ((discovered "a: 2\nx * x =\nx = a".toList {} {}).solveEquations.contextAt 1)).result = .ok v ∧
      ((discovered "a: 2\nx * x =\nx = a".toList {} {}).solveEquations.contextAt 1).isKnown ['x'] = true := by
  have hbound : ({} : Context).BoundKnown := fun _ h => nomatch h
  have hsides : parseSides "x * x =".toList = .ok ⟨.binary .multiply (.var ['x']) (.var ['x']), none⟩ := by rfl
  have hfind : find (discovered "a: 2\nx * x =\nx = a".toList {} {}).lines =
      [⟨"x * x =".toList, false, 1, 1⟩, ⟨"x = a".toList, false, 2, 2⟩] := by rfl
  obtain ⟨m, s, hturn, hx, ha, hunknown, hok, hclosed⟩ : ∃ m s,
      Turn (discovered "a: 2\nx * x =\nx = a".toList {} {}) m ⟨"x * x =".toList, false, 1, 1⟩ s ∧
      m.elsewhere 1 ['x'] = some (.var ['a']) ∧ m.elsewhere 1 ['a'] = none ∧
      (s.contextAt 1).isKnown ['x'] = false ∧
      ((m.eliminate 1 (.binary .multiply (.var ['x']) (.var ['x']))).eval (s.contextAt 1)).result.isOk = true ∧
      ((s.contextAt 1).unknowns [m.eliminate 1 (.binary .multiply (.var ['x']) (.var ['x']))]).names = [] :=
    ⟨_, _, turn_first hfind, by rfl, by rfl, by decide +kernel, by decide +kernel, by decide +kernel⟩
  have hline : (discovered "a: 2\nx * x =\nx = a".toList {} {}).solveEquations.lineAt 1 = "x * x = 4".toList := by
    decide +kernel
  have hread : ((Expr.var ['a']).eval
      ((discovered "a: 2\nx * x =\nx = a".toList {} {}).solveEquations.contextAt 1)).result.isOk = true := by
    decide +kernel
  have hsame : (((discovered "a: 2\nx * x =\nx = a".toList {} {}).solveEquations.contextAt 1).find? ['x']).map
      Context.Meaning.value = some (valueOrNan ((Expr.var ['a']).eval
        ((discovered "a: 2\nx * x =\nx = a".toList {} {}).solveEquations.contextAt 1))) := by
    decide +kernel
  have hinvolved (y : Text) (hy : m.Involves 1 (.binary .multiply (.var ['x']) (.var ['x'])) y) : y = ['x'] ∨ y = ['a'] := by
    induction hy with
    | name hy => exact .inl (by simpa [Expr.names] using hy)
    | definition _ hd hy ih =>
      rcases ih with rfl | rfl
      · obtain rfl := Option.some.inj (hx.symm.trans hd)
        exact .inr (List.mem_singleton.mp hy)
      · rw [ha] at hd
        cases hd
  have hspared : (s.contextAt 1).Spares ((discovered "a: 2\nx * x =\nx = a".toList {} {}).solveEquations.contextAt 1)
      (m.eliminate 1 (.binary .multiply (.var ['x']) (.var ['x']))) := by
    have hexpr : m.eliminate 1 (.binary .multiply (.var ['x']) (.var ['x'])) = .binary .multiply (.var ['a']) (.var ['a']) := by
      simp [Eliminations.eliminate, Eliminations.rounds, Nat.repeat, Expr.substitute, hx, ha]
    have hbuiltin : Context.namesBuiltin ['a'] = false := by decide +kernel
    rw [hexpr]
    intro name hread hname
    have ha : name = ['a'] := by
      cases hread with
      | left h => cases h; rfl
      | right h => cases h; rfl
    rw [ha, hbuiltin] at hname
    cases hname
  have hhonoured : ∀ y d, m.Involves 1 (.binary .multiply (.var ['x']) (.var ['x'])) y → m.elsewhere 1 y = some d → ∃ w,
      (((discovered "a: 2\nx * x =\nx = a".toList {} {}).solveEquations.contextAt 1).lookup y).result = .ok (some w) ∧
        (d.eval ((discovered "a: 2\nx * x =\nx = a".toList {} {}).solveEquations.contextAt 1)).result = .ok w := by
    intro y d hy hd
    rcases hinvolved y hy with rfl | rfl
    · obtain rfl := Option.some.inj (hx.symm.trans hd)
      exact ⟨_, (Context.result_lookup _ _).trans (congrArg Except.ok hsame), result_of_isOk hread⟩
    · rw [ha] at hd
      cases hd
  obtain ⟨-, hvalue, -, hknown⟩ := hturn.established hbound rfl hsides (result_of_isOk hok) hspared hhonoured
  refine ⟨m, _, s, _, hturn, rfl, hunknown, hline, hvalue, (hknown hclosed ['x'] (by simp [Expr.names])).resolve_right ?_⟩
  decide +kernel

/-- In `x * x =` the definition `x = a` is put in place of `x`. Then the value of `a` is rejected as one of `x`, which is
    known on no line, while the completed line stays. -/
theorem not_established :
    ∃ m eq s left v f, Turn (discovered "a: 5\nx [0:1]->\nx * x =\nx = a".toList {} {}) m eq s ∧ eq.braced = false ∧
      parseSides eq.text = .ok ⟨left, none⟩ ∧ (s.evaluate eq.firstLine (m.eliminate eq.firstLine left)).1 = .ok v ∧
      (discovered "a: 5\nx [0:1]->\nx * x =\nx = a".toList {} {}).solveEquations.lineAt eq.firstLine = "x * x = 25".toList ∧
      ['x'] ∈ left.names ∧ Context.namesBuiltin ['x'] = false ∧
      ((discovered "a: 5\nx [0:1]->\nx * x =\nx = a".toList {} {}).solveEquations.contextAt eq.firstLine).isKnown ['x'] =
        false ∧
      (discovered "a: 5\nx [0:1]->\nx * x =\nx = a".toList {} {}).solveEquations.failures.find? ['x'] = some f ∧
      m.elsewhere eq.firstLine ['x'] = some (.var ['a']) := by
  have hfind : find (discovered "a: 5\nx [0:1]->\nx * x =\nx = a".toList {} {}).lines =
      [⟨"x * x =".toList, false, 2, 2⟩, ⟨"x = a".toList, false, 3, 3⟩] := by rfl
  have hsides : parseSides "x * x =".toList = .ok ⟨.binary .multiply (.var ['x']) (.var ['x']), none⟩ := by rfl
  obtain ⟨m, s, hturn, hx, hok⟩ : ∃ m s, Turn (discovered "a: 5\nx [0:1]->\nx * x =\nx = a".toList {} {}) m
        ⟨"x * x =".toList, false, 2, 2⟩ s ∧ m.elsewhere 2 ['x'] = some (.var ['a']) ∧
      ((m.eliminate 2 (.binary .multiply (.var ['x']) (.var ['x']))).eval (s.contextAt 2)).result.isOk = true :=
    ⟨_, _, turn_first hfind, by rfl, by decide +kernel⟩
  obtain ⟨hline, hunknown, hfailed⟩ :
      (discovered "a: 5\nx [0:1]->\nx * x =\nx = a".toList {} {}).solveEquations.lineAt 2 = "x * x = 25".toList ∧
      ((discovered "a: 5\nx [0:1]->\nx * x =\nx = a".toList {} {}).solveEquations.contextAt 2).isKnown ['x'] = false ∧
      (discovered "a: 5\nx [0:1]->\nx * x =\nx = a".toList {} {}).solveEquations.failures.contains ['x'] = true := by
    decide +kernel
  obtain ⟨f, hf⟩ := Option.isSome_iff_exists.mp hfailed
  have hbuiltin : Context.namesBuiltin ['x'] = false := by decide +kernel
  exact ⟨m, _, s, _, _, f, hturn, rfl, hsides, result_of_isOk hok, hline, by simp [Expr.names], hbuiltin, hunknown, hf, hx⟩

end SolveState
end Worksheet
