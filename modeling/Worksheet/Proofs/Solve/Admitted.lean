import Worksheet.Proofs.Root.Within
import Worksheet.Proofs.Solve.Orientation

/-! Limits on both ways to a value. A search for a root is made in the interval between the limits, in whatever order
    they are declared; the value of a definition must not be below the first one nor above the second. So the two agree
    on limits in order, and of reversed ones a definition is refused every value that a search could find. -/

namespace Worksheet

namespace Limits
open Root Binary
open Float.Model (UnpackedFloat)

variable {l : Limits} {v : Float}

/-- The value is in the interval in which a search with the limits is made. -/
def Encloses (l : Limits) (v : Float) : Prop := l.lowest ≤ v ∧ v ≤ l.highest

instance : Decidable (l.Encloses v) := inferInstanceAs (Decidable (_ ∧ _))

theorem admits_iff : l.admits v = true ↔ l.low ≤ v ∧ v ≤ l.high := by
  simp [admits]

theorem isFinite_of_admits (hlow : l.low.isFinite = true) (hhigh : l.high.isFinite = true) (hv : l.admits v = true) :
    v.isFinite = true := by
  obtain ⟨hlv, hvh⟩ := admits_iff.mp hv
  rw [le_iff] at hlv hvh
  by_contra hinfinite
  rcases unpack_of_not_isFinite hinfinite with hnan | ⟨sign | sign, hinf⟩
  · rcases unpack_of_isFinite hlow with ⟨t, h⟩ | ⟨t, m, e, hm, h⟩ <;>
      simp [hnan, h, UnpackedFloat.le, UnpackedFloat.compare] at hlv
  · rcases unpack_of_isFinite hlow with ⟨t, h⟩ | ⟨t, m, e, hm, h⟩ <;>
      simp [hinf, h, UnpackedFloat.le, UnpackedFloat.compare] at hlv
  · rcases unpack_of_isFinite hhigh with ⟨t, h⟩ | ⟨t, m, e, hm, h⟩ <;>
      simp [hinf, h, UnpackedFloat.le, UnpackedFloat.compare] at hvh

theorem low_le_high (hlow : l.low.isFinite = true) (hhigh : l.high.isFinite = true) (hv : l.admits v = true) :
    l.low ≤ l.high := by
  obtain ⟨hlv, hvh⟩ := admits_iff.mp hv
  have hfinite := isFinite_of_admits hlow hhigh hv
  rw [le_iff_value hlow hfinite] at hlv
  rw [le_iff_value hfinite hhigh] at hvh
  exact (le_iff_value hlow hhigh).mpr (hlv.trans hvh)

/-- Limits in order are those that a search takes as they are. -/
theorem encloses_iff_admits (hlow : l.low.isFinite = true) (hhigh : l.high.isFinite = true) (h : l.low ≤ l.high) :
    l.Encloses v ↔ l.admits v = true := by
  have hgt : ¬l.low > l.high := by
    rw [gt_iff_lt, lt_iff_value hhigh hlow, not_lt]
    exact (le_iff_value hlow hhigh).mp h
  rw [admits_iff, Encloses, lowest, highest, if_neg hgt, if_neg hgt]

/-- A value is admitted exactly if it is enclosed, unless the limits are reversed and enclose it. -/
theorem admits_iff_encloses_iff (hlow : l.low.isFinite = true) (hhigh : l.high.isFinite = true) :
    (l.admits v = true ↔ l.Encloses v) ↔ l.low ≤ l.high ∨ ¬l.Encloses v := by
  by_cases h : l.low ≤ l.high
  · exact iff_of_true (encloses_iff_admits hlow hhigh h).symm (.inl h)
  · have hrefused : ¬l.admits v = true := fun hv => h (low_le_high hlow hhigh hv)
    simp [h, hrefused]

end Limits

namespace SolveState

/-- The equation defines `x`, which is not known where it stands, by an expression with the value `v`. -/
def Gives (s : SolveState) (eq : Equation) (x : Text) (v : Float) : Prop :=
  ∃ left right e, Equation.parseSides eq.text = .ok ⟨left, some right⟩ ∧
    Definition.ofSides? ⟨left, some right⟩ = some ⟨x, e⟩ ∧ (s.contextAt eq.firstLine).isKnown x = false ∧
    ((s.contextAt eq.firstLine).unknowns [e]).names = [] ∧ (e.eval (s.contextAt eq.firstLine)).result = .ok v

section Admitted
variable {s : SolveState} {m : Eliminations} {eq : Equation} {x : Text} {v : Float} {l : Limits}

/-- The value of a definition becomes that of the name exactly if the limits admit it. -/
theorem Gives.find?_iff (hgiven : ∀ name, s.given.contains name = true → s.context.hasVariable name = true)
    (h : Gives s eq x v) :
    (solveEquation m s eq).context.values.find? x = some v ↔ s.admits x v = true := by
  obtain ⟨left, right, e, hsides, hd, hknown, hclosed, hv⟩ := h
  rw [solveEquation_of_sides hgiven hsides, hd]
  dsimp only
  rw [hknown, if_neg Bool.false_ne_true, if_pos hclosed]
  rcases s.evaluateDefinition_cases eq.firstLine ⟨x, e⟩ with
    ⟨t, p, -, herror, -⟩ | ⟨t, w, huses, hw, hcase⟩
  · cases hv.symm.trans herror
  · obtain rfl := Except.ok.inj (hw.symm.trans hv)
    rcases hcase with ⟨hadmits, heq⟩ | ⟨hadmits, cause, heq⟩
    · refine iff_of_true ?_ hadmits
      rw [heq]
      show (t.context.values.insert x w).find? x = some w
      rw [Table.find?_insert, if_pos rfl]
    · refine iff_of_false ?_ (by simp [hadmits])
      rw [heq]
      show t.context.values.find? x ≠ some w
      have hnone : s.context.values.find? x = none := (Context.isKnown_eq_false_iff.mp hknown).1
      rw [huses.context, hnone]
      exact (Option.some_ne_none w).symm

/-- In the second pass over a document, the value of a definition becomes that of the name if it is in the interval in
    which a root would be searched for, and only then, as long as the limits are in order. Between reversed limits no
    value is accepted, although the search has the same interval. -/
theorem Turn.accepts_iff {text : Text} {c : Context} {settings : Settings}
    (h : Turn (discovered text c settings) m eq s) (hgives : Gives s eq x v) (hlimits : (s.limitsOf x).1 = some l)
    (hlow : l.low.isFinite = true) (hhigh : l.high.isFinite = true) :
    (∀ f, Root.find f (s.limitsOf x).1 = (Root.between f ⟨l.lowest, f l.lowest⟩ ⟨l.highest, f l.highest⟩).run
      #[l.lowest, l.highest]) ∧
    (((solveEquation m s eq).context.values.find? x = some v ↔ l.Encloses v) ↔ l.low ≤ l.high ∨ ¬l.Encloses v) := by
  have hadmits : s.admits x v = l.admits v := by
    rw [admits, hlimits]
    rfl
  refine ⟨fun f => hlimits ▸ Root.run_within hlow hhigh, ?_⟩
  rw [hgives.find?_iff (fun _ => h.given_known), hadmits]
  exact Limits.admits_iff_encloses_iff hlow hhigh

end Admitted

/-- The definition `x = a`, where the value of `a` is between the limits of `x`. -/
theorem accepts_between :
    ∃ m eq s v l, Turn (discovered "a: 3\nx [0:5]->\nx = a".toList {} {}) m eq s ∧ Gives s eq ['x'] v ∧
      (s.limitsOf ['x']).1 = some l ∧ (l.low.isFinite = true ∧ l.high.isFinite = true) ∧ l.Encloses v ∧
      (solveEquation m s eq).context.values.find? ['x'] = some v := by
  have hfind : Equation.find (discovered "a: 3\nx [0:5]->\nx = a".toList {} {}).lines =
      [⟨"x = a".toList, false, 2, 2⟩] := by rfl
  obtain ⟨m, s, hturn, hknown, hclosed, hvalue, hlimits⟩ : ∃ m s,
      Turn (discovered "a: 3\nx [0:5]->\nx = a".toList {} {}) m ⟨"x = a".toList, false, 2, 2⟩ s ∧
      (s.contextAt 2).isKnown ['x'] = false ∧ ((s.contextAt 2).unknowns [.var ['a']]).names = [] ∧
      ((Expr.var ['a']).eval (s.contextAt 2)).result.isOk = true ∧
      (s.limitsOf ['x']).1.any (fun l => (l.low.isFinite ∧ l.high.isFinite) ∧ l.low ≤ l.high ∧
        l.Encloses (valueOrNan ((Expr.var ['a']).eval (s.contextAt 2)))) = true :=
    ⟨_, _, turn_first hfind, by decide +kernel, by decide +kernel, by decide +kernel, by decide +kernel⟩
  obtain ⟨l, hlimits, hl⟩ := (Option.any_eq_true _ _).mp hlimits
  obtain ⟨hfinite, horder, hencloses⟩ := of_decide_eq_true hl
  have hgives : Gives s ⟨"x = a".toList, false, 2, 2⟩ ['x'] (valueOrNan ((Expr.var ['a']).eval (s.contextAt 2))) :=
    ⟨.var ['x'], .var ['a'], .var ['a'], rfl, rfl, hknown, hclosed, result_of_isOk hvalue⟩
  refine ⟨_, _, _, _, _, hturn, hgives, hlimits, hfinite, hencloses, ?_⟩
  exact ((hturn.accepts_iff hgives hlimits hfinite.1 hfinite.2).2.mpr (.inl horder)).mpr hencloses

/-- The same limits in reversed order: the value is refused. -/
theorem not_accepts_reversed :
    ∃ m eq s v l, Turn (discovered "a: 3\nx [5:0]->\nx = a".toList {} {}) m eq s ∧ Gives s eq ['x'] v ∧
      (s.limitsOf ['x']).1 = some l ∧ (l.low.isFinite = true ∧ l.high.isFinite = true) ∧ l.Encloses v ∧
      (solveEquation m s eq).context.values.find? ['x'] = none ∧
      (solveEquation m s eq).failures.contains ['x'] = true := by
  have hfind : Equation.find (discovered "a: 3\nx [5:0]->\nx = a".toList {} {}).lines =
      [⟨"x = a".toList, false, 2, 2⟩] := by rfl
  obtain ⟨m, s, hturn, hknown, hclosed, hvalue, hlimits, hnone, hfailed⟩ : ∃ m s,
      Turn (discovered "a: 3\nx [5:0]->\nx = a".toList {} {}) m ⟨"x = a".toList, false, 2, 2⟩ s ∧
      (s.contextAt 2).isKnown ['x'] = false ∧ ((s.contextAt 2).unknowns [.var ['a']]).names = [] ∧
      ((Expr.var ['a']).eval (s.contextAt 2)).result.isOk = true ∧
      (s.limitsOf ['x']).1.any (fun l => (l.low.isFinite ∧ l.high.isFinite) ∧
        l.Encloses (valueOrNan ((Expr.var ['a']).eval (s.contextAt 2)))) = true ∧
      (solveEquation m s ⟨"x = a".toList, false, 2, 2⟩).context.hasVariable ['x'] = false ∧
      (solveEquation m s ⟨"x = a".toList, false, 2, 2⟩).failures.contains ['x'] = true :=
    ⟨_, _, turn_first hfind, by decide +kernel, by decide +kernel, by decide +kernel, by decide +kernel, by decide +kernel,
      by decide +kernel⟩
  obtain ⟨l, hlimits, hl⟩ := (Option.any_eq_true _ _).mp hlimits
  obtain ⟨hfinite, hencloses⟩ := of_decide_eq_true hl
  have hgives : Gives s ⟨"x = a".toList, false, 2, 2⟩ ['x'] (valueOrNan ((Expr.var ['a']).eval (s.contextAt 2))) :=
    ⟨.var ['x'], .var ['a'], .var ['a'], rfl, rfl, hknown, hclosed, result_of_isOk hvalue⟩
  have hnone : (solveEquation m s ⟨"x = a".toList, false, 2, 2⟩).context.values.find? ['x'] = none := by
    simpa [Context.hasVariable, Table.contains] using hnone
  exact ⟨_, _, _, _, _, hturn, hgives, hlimits, hfinite, hencloses, hnone, hfailed⟩

end SolveState
end Worksheet
