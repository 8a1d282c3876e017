import Worksheet.Solve.Output

/-! What a solve leaves as it is. Evaluating never touches the lines; before values are written only inline
    expressions and incomplete equations are. -/

namespace Worksheet

/-- A solve writes nothing into the equation: it has two sides or cannot be read, or it stands in braces. -/
def Equation.isComplete (eq : Equation) : Bool :=
  eq.braced ||
    match Equation.parseSides eq.text with
    | .ok ⟨_, none⟩ => false
    | _ => true

namespace SolveState

/-- The same lines, and the same settings. -/
structure Keeps (s s' : SolveState) : Prop where
  lines : s'.lines = s.lines
  settings : s'.settings = s.settings

section Keeps
variable {s s' s'' : SolveState}

theorem Keeps.refl (s : SolveState) : Keeps s s := ⟨rfl, rfl⟩

theorem Keeps.trans (h : Keeps s s') (h' : Keeps s' s'') : Keeps s s'' :=
  ⟨h'.lines.trans h.lines, h'.settings.trans h.settings⟩

/-- The state of a result. -/
theorem Keeps.of_eq {α : Type} {x : α × SolveState} {r : α} (h : Keeps s x.2) (hx : x = (r, s')) : Keeps s s' := by
  rw [hx] at h
  exact h

theorem Keeps.foldl {α : Type} {f : SolveState → α → SolveState} {ls : List Text} {xs : List α}
    (hf : ∀ s, s.lines = ls → ∀ a ∈ xs, Keeps s (f s a)) (hs : s.lines = ls) : Keeps s (xs.foldl f s) := by
  induction xs generalizing s with
  | nil => exact .refl s
  | cons a xs ih =>
    have hone := hf s hs a List.mem_cons_self
    exact hone.trans (ih (fun s hs b hb => hf s hs b (List.mem_cons_of_mem a hb)) (hone.lines.trans hs))

end Keeps

/-! ### Evaluating -/

section Evaluate
variable (s : SolveState) (line : Nat)

theorem keeps_report (p : Problem) : Keeps s (s.report line p) := ⟨rfl, rfl⟩

theorem keeps_use (u : Usage) : Keeps s (s.use u) := ⟨rfl, rfl⟩

theorem keeps_fail (name : Text) (cause : FailureCause) : Keeps s (s.fail name cause line) := ⟨rfl, rfl⟩

theorem keeps_assign (name : Text) (v : Float) : Keeps s (s.assign name v) := ⟨rfl, rfl⟩

theorem keeps_evaluate (e : Expr) : Keeps s (s.evaluate line e).2 := ⟨rfl, rfl⟩

theorem keeps_evaluateText (t : Text) : Keeps s (s.evaluateText line t).2 := by
  unfold evaluateText
  split
  · exact .refl s
  · rename_i e he
    have hkeeps := s.keeps_evaluate line e
    split
    · rename_i heq
      exact hkeeps.of_eq heq
    · rename_i heq
      exact hkeeps.of_eq heq

theorem keeps_valueOf (style : Style) (t : Text) : Keeps s (s.valueOf line style t).2 := by
  unfold valueOf
  split
  · exact .refl s
  · exact s.keeps_evaluateText line t

theorem keeps_limitsOf (name : Text) : Keeps s (s.limitsOf name).2 := by
  unfold limitsOf
  split
  · exact .refl s
  · rename_i site hsite
    split
    · exact .refl s
    · rename_i l hl
      have hlow := s.keeps_valueOf site.line site.found.decoration.style l.low
      split
      · rename_i s₁ heq
        exact hlow.of_eq heq
      · rename_i low s₁ heq
        have hhigh := s₁.keeps_valueOf site.line site.found.decoration.style l.high
        split
        · rename_i heq'
          exact (hlow.of_eq heq).trans (hhigh.of_eq heq')
        · rename_i heq'
          exact (hlow.of_eq heq).trans (hhigh.of_eq heq')

end Evaluate

/-! ### The first pass -/

section Discover
variable (s : SolveState) (line : Nat)

theorem keeps_loadFunctions : Keeps s s.loadFunctions := by
  unfold loadFunctions
  refine Keeps.foldl (fun s hs f hf => ?_) rfl
  unfold loadFunction
  split <;> exact ⟨rfl, rfl⟩

theorem keeps_accept (name : Text) (l : ValueLine) (first : Option Nat) (v : Float) :
    Keeps s (s.accept name l line first v) := by
  unfold accept
  dsimp only
  split
  · split <;> exact ⟨rfl, rfl⟩
  · exact ⟨rfl, rfl⟩

theorem keeps_declareValue (name : Text) (l : ValueLine) (first : Option Nat) :
    Keeps s (s.declareValue name l line first) := by
  unfold declareValue
  split
  · exact s.keeps_report line _
  · have hshadow : Keeps s { s with context := s.context.shadow name line } := ⟨rfl, rfl⟩
    have hvalue := ({ s with context := s.context.shadow name line } : SolveState).keeps_valueOf line
      l.decoration.style l.valueText
    dsimp only
    split
    · rename_i p s₁ heq
      exact (hshadow.trans (hvalue.of_eq heq)).trans (s₁.keeps_report line _)
    · rename_i v s₁ heq
      exact (hshadow.trans (hvalue.of_eq heq)).trans (s₁.keeps_accept line name l first v)

theorem keeps_declare (name : Text) (l : ValueLine) : Keeps s (s.declare name l line) := by
  have hadded : Keeps s { s with sites := s.sites ++ [⟨name, l, line⟩] } := ⟨rfl, rfl⟩
  unfold declare
  dsimp only
  split
  · exact hadded
  · exact hadded.trans (keeps_declareValue _ line name l _)

/-- A line without inline expressions is left as it is. -/
theorem spliceLine_eq {s : SolveState} {line : Nat} (h : Inline.find (s.lineAt line) = []) (reporting : Bool) :
    spliceLine reporting s line = s := by
  unfold spliceLine
  rw [h]
  rfl

end Discover
/-! ### Equations -/

section Equations
variable (s : SolveState) (line : Nat)

theorem keeps_checkLimits (name : Text) (v : Float) : Keeps s (s.checkLimits name v line).2 := by
  have hlimits := s.keeps_limitsOf name
  unfold checkLimits
  split
  · rename_i heq
    exact hlimits.of_eq heq
  · rename_i l s₁ heq
    split
    · exact hlimits.of_eq heq
    · exact (hlimits.of_eq heq).trans (s₁.keeps_fail line name _)

theorem keeps_evaluateDefinition (d : Definition) : Keeps s (s.evaluateDefinition line d) := by
  have hvalue := s.keeps_evaluate line d.expr
  unfold evaluateDefinition
  split
  · rename_i e s₁ heq
    exact (hvalue.of_eq heq).trans (s₁.keeps_fail line d.name _)
  · rename_i v s₁ heq
    have hlimits := s₁.keeps_checkLimits line d.name v
    split
    · rename_i s₂ heq'
      exact ((hvalue.of_eq heq).trans (hlimits.of_eq heq')).trans (s₂.keeps_assign d.name v)
    · rename_i heq'
      exact (hvalue.of_eq heq).trans (hlimits.of_eq heq')

theorem keeps_define (d : Definition) : Keeps s (s.define line d).2 := by
  unfold define
  dsimp only
  split
  · exact .refl s
  · split
    · exact s.keeps_evaluateDefinition line d
    · exact .refl s

theorem keeps_useAt (f : Float → Evaluation Float) (points : List Float) : Keeps s (s.useAt f points) := by
  unfold useAt
  exact Keeps.foldl (fun s _ p _ => s.keeps_use (f p).used) rfl

theorem keeps_solveFor (x : Text) (left right : Expr) : Keeps s (s.solveFor line x left right) := by
  have hlimits := s.keeps_limitsOf x
  unfold solveFor
  generalize s.limitsOf x = r at hlimits
  obtain ⟨limits, s₁⟩ := r
  dsimp only at hlimits ⊢
  split
  · exact (hlimits.trans (s₁.keeps_useAt _ _)).trans (keeps_fail _ line x _)
  · split
    · exact ((hlimits.trans (s₁.keeps_useAt _ _)).trans (keeps_useAt _ _ _)).trans (keeps_assign _ x _)
    · exact ((hlimits.trans (s₁.keeps_useAt _ _)).trans (keeps_useAt _ _ _)).trans (keeps_fail _ line x _)

theorem keeps_solveSides (left right : Expr) (m : Eliminations) : Keeps s (s.solveSides line left right m) := by
  unfold solveSides
  split
  · exact .refl s
  · exact s.keeps_solveFor line _ left right
  · dsimp only
    split
    · exact s.keeps_solveFor line _ _ _
    · exact .refl s

theorem keeps_solveBoth (sides : Sides) (right : Expr) (m : Eliminations) :
    Keeps s (s.solveBoth line sides right m) := by
  unfold solveBoth
  split
  · exact s.keeps_solveSides line sides.left right m
  · rename_i d hd
    have hdefined := s.keeps_define line d
    split
    · rename_i s₁ heq
      exact (hdefined.of_eq heq).trans (s₁.keeps_solveSides line sides.left right m)
    · rename_i heq
      exact hdefined.of_eq heq

end Equations

/-! ### Balance -/

section Balance
variable (s : SolveState)

theorem keeps_checkEquation (eq : Equation) : Keeps s (s.checkEquation eq) := by
  unfold checkEquation
  split
  · exact s.keeps_report _ _
  · rename_i left hsides
    have hvalue := s.keeps_evaluate eq.firstLine left
    unfold checkLeft
    split
    · rename_i e s₁ heq
      exact (hvalue.of_eq heq).trans (s₁.keeps_report _ _)
    · rename_i heq
      exact hvalue.of_eq heq
  · split
    · unfold checkSides
      dsimp only
      split
      · exact (s.keeps_use _).trans (keeps_report _ _ _)
      · split
        · exact s.keeps_use _
        · exact (s.keeps_use _).trans (keeps_report _ _ _)
    · exact .refl s

theorem keeps_checkBalance : Keeps s s.checkBalance := by
  unfold checkBalance
  exact Keeps.foldl (fun s _ eq _ => s.keeps_checkEquation eq) rfl

end Balance

theorem appendReferences_of_off {s : SolveState} (h : s.settings.appendReferences = false) : s.appendReferences = s := by
  unfold appendReferences
  simp [h]

end SolveState
end Worksheet
