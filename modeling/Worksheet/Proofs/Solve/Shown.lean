import Worksheet.Proofs.Solve.Lead

/-! What a document shows before it is solved, and whether references are to be listed. Old output values are looked at
    only to count how many values are new, and the wish for a list only when everything else is written: two runs whose
    states are `Alike` at the start write the same lines, up to the list, and report the same issues. -/

namespace Worksheet
namespace SolveState

/-- The states differ at most in what was shown before, in how many values have been counted and in whether references
    are to be listed. -/
def Alike (s s' : SolveState) : Prop :=
  ∃ shown solved append, s' = { s with shown, solved, settings := { s.settings with appendReferences := append } }

/-- Equal results with states that are alike. -/
def Agree {α : Type} (x y : α × SolveState) : Prop := ∃ r s s', x = (r, s) ∧ y = (r, s') ∧ Alike s s'

section Alike
variable {s s' : SolveState}

theorem Alike.lines_eq (h : Alike s s') : s'.lines = s.lines := by
  obtain ⟨t, n, b, rfl⟩ := h
  rfl

theorem Alike.lineAt_eq (h : Alike s s') (line : Nat) : s'.lineAt line = s.lineAt line := by
  obtain ⟨t, n, b, rfl⟩ := h
  rfl

theorem Alike.issues_eq (h : Alike s s') : s'.issues = s.issues := by
  obtain ⟨t, n, b, rfl⟩ := h
  rfl

theorem Alike.write_eq (h : Alike s s') (v : Float) : s'.settings.write v = s.settings.write v := by
  obtain ⟨t, n, b, rfl⟩ := h
  rfl

theorem Alike.balances_eq (h : Alike s s') (l r : Float) : balances s'.settings l r = balances s.settings l r := by
  obtain ⟨t, n, b, rfl⟩ := h
  rfl

theorem Alike.foldl {α : Type} {f : SolveState → α → SolveState} (hf : ∀ s s' a, Alike s s' → Alike (f s a) (f s' a))
    (xs : List α) (h : Alike s s') : Alike (xs.foldl f s) (xs.foldl f s') := by
  induction xs generalizing s s' with
  | nil => exact h
  | cons a xs ih => exact ih (hf s s' a h)

/-- A fold that carries something beside the state. -/
theorem Alike.foldl_pair {α β : Type} {f : SolveState × β → α → SolveState × β}
    (hf : ∀ s s' b a, Alike s s' → Alike (f (s, b) a).1 (f (s', b) a).1 ∧ (f (s, b) a).2 = (f (s', b) a).2)
    (xs : List α) (b : β) (h : Alike s s') : Alike (xs.foldl f (s, b)).1 (xs.foldl f (s', b)).1 := by
  induction xs generalizing s s' b with
  | nil => exact h
  | cons a xs ih =>
    obtain ⟨hs, hb⟩ := hf s s' b a h
    have hx : f (s, b) a = ((f (s, b) a).1, (f (s, b) a).2) := rfl
    have hy : f (s', b) a = ((f (s', b) a).1, (f (s, b) a).2) := by rw [hb]
    rw [List.foldl_cons, List.foldl_cons, hx, hy]
    exact ih _ hs

/-! ### Elementary changes -/

theorem Alike.report (h : Alike s s') (line : Nat) (p : Problem) : Alike (s.report line p) (s'.report line p) := by
  obtain ⟨t, n, b, rfl⟩ := h
  exact ⟨t, n, b, rfl⟩

theorem Alike.setLine (h : Alike s s') (line : Nat) (t : Text) : Alike (s.setLine line t) (s'.setLine line t) := by
  obtain ⟨t, n, b, rfl⟩ := h
  exact ⟨t, n, b, rfl⟩

theorem Alike.use (h : Alike s s') (u : Usage) : Alike (s.use u) (s'.use u) := by
  obtain ⟨t, n, b, rfl⟩ := h
  exact ⟨t, n, b, rfl⟩

theorem Alike.fail (h : Alike s s') (name : Text) (cause : FailureCause) (line : Nat) :
    Alike (s.fail name cause line) (s'.fail name cause line) := by
  obtain ⟨t, n, b, rfl⟩ := h
  exact ⟨t, n, b, rfl⟩

theorem Alike.assign (h : Alike s s') (name : Text) (v : Float) : Alike (s.assign name v) (s'.assign name v) := by
  obtain ⟨t, n, b, rfl⟩ := h
  exact ⟨t, _, b, rfl⟩

/-! ### Evaluating -/

theorem Alike.agree {α : Type} (r : α) (h : Alike s s') : Agree (r, s) (r, s') := ⟨r, s, s', rfl, rfl, h⟩

theorem Alike.evaluate (h : Alike s s') (line : Nat) (e : Expr) : Agree (s.evaluate line e) (s'.evaluate line e) := by
  obtain ⟨t, n, b, rfl⟩ := h
  exact ⟨_, _, _, rfl, rfl, t, n, b, rfl⟩

theorem Alike.evaluateText (h : Alike s s') (line : Nat) (t : Text) :
    Agree (s.evaluateText line t) (s'.evaluateText line t) := by
  unfold SolveState.evaluateText
  split
  · exact h.agree _
  · rename_i e he
    obtain ⟨r, s₁, s₂, h₁, h₂, h⟩ := h.evaluate line e
    rw [h₁, h₂]
    cases r with
    | error e => exact h.agree _
    | ok v => exact h.agree _

theorem Alike.valueOf (h : Alike s s') (line : Nat) (style : Style) (t : Text) :
    Agree (s.valueOf line style t) (s'.valueOf line style t) := by
  unfold SolveState.valueOf
  split
  · exact h.agree _
  · exact h.evaluateText line t

theorem Alike.limitsOf (h : Alike s s') (name : Text) : Agree (s.limitsOf name) (s'.limitsOf name) := by
  have hsites : s'.sites = s.sites := by
    obtain ⟨t, n, b, rfl⟩ := h
    rfl
  unfold SolveState.limitsOf
  rw [hsites]
  split
  · exact h.agree _
  · rename_i site hsite
    split
    · exact h.agree _
    · rename_i l hl
      obtain ⟨r, s₁, s₂, h₁, h₂, h⟩ := h.valueOf site.line site.found.decoration.style l.low
      rw [h₁, h₂]
      cases r with
      | error p => exact h.agree _
      | ok low =>
        obtain ⟨r, s₁, s₂, h₁, h₂, h⟩ := h.valueOf site.line site.found.decoration.style l.high
        dsimp only
        rw [h₁, h₂]
        cases r with
        | error p => exact h.agree _
        | ok high => exact h.agree _

end Alike

/-! ### The first pass -/

section Passes
variable {s s' : SolveState}

theorem Alike.loadFunctions (h : Alike s s') : Alike s.loadFunctions s'.loadFunctions := by
  unfold SolveState.loadFunctions
  rw [h.lines_eq]
  refine h.foldl ?_ _
  intro s s' f h
  unfold loadFunction
  split
  · obtain ⟨t, n, b, rfl⟩ := h
    exact ⟨t, n, b, rfl⟩
  · exact h.report _ _

theorem Alike.spliceOne (h : Alike s s') (line : Nat) (reporting : Bool) (e : Inline) :
    Alike (spliceOne line reporting s e) (spliceOne line reporting s' e) := by
  unfold SolveState.spliceOne
  obtain ⟨r, s₁, s₂, h₁, h₂, h⟩ := h.evaluateText line e.source
  rw [h₁, h₂]
  cases r with
  | error p =>
    dsimp only
    split
    · exact h.report line p
    · exact h
  | ok v =>
    dsimp only
    rw [h.lineAt_eq]
    exact h.setLine line _

theorem Alike.spliceLine (h : Alike s s') (line : Nat) (reporting : Bool) :
    Alike (spliceLine reporting s line) (spliceLine reporting s' line) := by
  unfold SolveState.spliceLine
  rw [h.lineAt_eq]
  exact h.foldl (fun s s' e h => h.spliceOne line reporting e) _

theorem Alike.accept (h : Alike s s') (name : Text) (l : ValueLine) (line : Nat) (first : Option Nat) (v : Float) :
    Alike (s.accept name l line first v) (s'.accept name l line first v) := by
  obtain ⟨t, n, b, rfl⟩ := h
  unfold SolveState.accept
  dsimp only
  split
  · split
    · exact ⟨t, n, b, rfl⟩
    · exact ⟨t, n, b, rfl⟩
  · exact ⟨t, n, b, rfl⟩

theorem Alike.declareValue (h : Alike s s') (name : Text) (l : ValueLine) (line : Nat) (first : Option Nat) :
    Alike (s.declareValue name l line first) (s'.declareValue name l line first) := by
  obtain ⟨t, n, b, rfl⟩ := h
  unfold SolveState.declareValue
  dsimp only
  split
  · exact ⟨t, n, b, rfl⟩
  · have hshadow : Alike { s with context := s.context.shadow name line }
        { s with
          context := s.context.shadow name line
          shown := t
          solved := n
          settings := { s.settings with appendReferences := b } } := ⟨t, n, b, rfl⟩
    obtain ⟨r, s₁, s₂, h₁, h₂, h⟩ := hshadow.valueOf line l.decoration.style l.valueText
    rw [h₁, h₂]
    cases r with
    | error p => exact h.report _ _
    | ok v => exact h.accept name l line first v

theorem Alike.declare (h : Alike s s') (name : Text) (l : ValueLine) (line : Nat) :
    Alike (s.declare name l line) (s'.declare name l line) := by
  have hsites : s'.sites = s.sites := by
    obtain ⟨t, n, b, rfl⟩ := h
    rfl
  have hadded : Alike { s with sites := s.sites ++ [⟨name, l, line⟩] } { s' with sites := s.sites ++ [⟨name, l, line⟩] } := by
    obtain ⟨t, n, b, rfl⟩ := h
    exact ⟨t, n, b, rfl⟩
  unfold SolveState.declare
  rw [hsites]
  dsimp only
  split
  · exact hadded
  · exact hadded.declareValue name l line _

theorem Alike.discoverLine (h : Alike s s') (found : List (Option ValueLine)) (line : Nat) :
    Alike (discoverLine (s, found) line).1 (discoverLine (s', found) line).1 ∧
      (discoverLine (s, found) line).2 = (discoverLine (s', found) line).2 := by
  have hspliced := h.spliceLine line false
  have hfound : (if (s'.spliceLine false line).lineAt line = s'.lineAt line then found
        else Lines.classify (s'.spliceLine false line).lines) =
      if (s.spliceLine false line).lineAt line = s.lineAt line then found
        else Lines.classify (s.spliceLine false line).lines := by
    rw [hspliced.lineAt_eq, hspliced.lines_eq, h.lineAt_eq]
  unfold SolveState.discoverLine
  dsimp only
  rw [hfound]
  generalize (if (s.spliceLine false line).lineAt line = s.lineAt line then found
    else Lines.classify (s.spliceLine false line).lines) = now
  split
  · split
    · exact ⟨hspliced.declare _ _ _, rfl⟩
    · exact ⟨hspliced, rfl⟩
  · exact ⟨hspliced, rfl⟩

theorem Alike.discover (h : Alike s s') : Alike s.discover s'.discover := by
  unfold SolveState.discover
  rw [h.lines_eq]
  exact h.foldl_pair (fun s s' found line h => h.discoverLine found line) _ _

/-! ### Equations -/

theorem Alike.complete (h : Alike s s') (eq : Equation) (left : Expr) (m : Eliminations) :
    Alike (s.complete eq left m) (s'.complete eq left m) := by
  unfold SolveState.complete
  split
  · exact h
  · obtain ⟨r, s₁, s₂, h₁, h₂, h⟩ := h.evaluate eq.firstLine (m.eliminate eq.firstLine left)
    rw [h₁, h₂]
    cases r with
    | error e => exact h
    | ok v =>
      dsimp only
      rw [h.lineAt_eq, h.write_eq]
      split
      · exact h
      · obtain ⟨t, n, b, rfl⟩ := h
        exact ⟨t, n + 1, b, rfl⟩

theorem Alike.checkLimits (h : Alike s s') (name : Text) (v : Float) (line : Nat) :
    Agree (s.checkLimits name v line) (s'.checkLimits name v line) := by
  unfold SolveState.checkLimits
  obtain ⟨r, s₁, s₂, h₁, h₂, h⟩ := h.limitsOf name
  rw [h₁, h₂]
  cases r with
  | none => exact h.agree _
  | some l =>
    dsimp only
    rw [h.write_eq, h.write_eq, h.write_eq]
    split
    · exact h.agree _
    · exact (h.fail _ _ _).agree _

theorem Alike.evaluateDefinition (h : Alike s s') (line : Nat) (d : Definition) :
    Alike (s.evaluateDefinition line d) (s'.evaluateDefinition line d) := by
  unfold SolveState.evaluateDefinition
  obtain ⟨r, s₁, s₂, h₁, h₂, h⟩ := h.evaluate line d.expr
  rw [h₁, h₂]
  cases r with
  | error e => exact h.fail _ _ _
  | ok v =>
    dsimp only
    obtain ⟨admitted, s₁, s₂, h₁, h₂, h⟩ := h.checkLimits d.name v line
    rw [h₁, h₂]
    cases admitted with
    | true => exact h.assign _ _
    | false => exact h

theorem Alike.define (h : Alike s s') (line : Nat) (d : Definition) : Agree (s.define line d) (s'.define line d) := by
  have hcontext : s'.contextAt line = s.contextAt line := by
    obtain ⟨t, n, b, rfl⟩ := h
    rfl
  have hgiven : s'.given = s.given := by
    obtain ⟨t, n, b, rfl⟩ := h
    rfl
  unfold SolveState.define
  rw [hcontext, hgiven]
  dsimp only
  split
  · exact h.agree _
  · split
    · exact (h.evaluateDefinition line d).agree _
    · exact h.agree _

theorem Alike.useAt (h : Alike s s') (f : Float → Evaluation Float) (points : List Float) :
    Alike (s.useAt f points) (s'.useAt f points) := by
  unfold SolveState.useAt
  exact h.foldl (fun s s' p h => h.use (f p).used) points

theorem Alike.solveFor (h : Alike s s') (line : Nat) (x : Text) (left right : Expr) :
    Alike (s.solveFor line x left right) (s'.solveFor line x left right) := by
  unfold SolveState.solveFor
  obtain ⟨limits, s₁, s₂, h₁, h₂, h⟩ := h.limitsOf x
  rw [h₁, h₂]
  have hcontext : s₂.contextAt line = s₁.contextAt line := by
    obtain ⟨t, n, b, rfl⟩ := h
    rfl
  dsimp only
  rw [hcontext]
  split
  · exact (h.useAt _ _).fail _ _ _
  · split
    · exact ((h.useAt _ _).useAt _ _).assign _ _
    · exact ((h.useAt _ _).useAt _ _).fail _ _ _

theorem Alike.solveSides (h : Alike s s') (line : Nat) (left right : Expr) (m : Eliminations) :
    Alike (s.solveSides line left right m) (s'.solveSides line left right m) := by
  have hcontext : s'.contextAt line = s.contextAt line := by
    obtain ⟨t, n, b, rfl⟩ := h
    rfl
  unfold SolveState.solveSides
  rw [hcontext]
  split
  · exact h
  · exact h.solveFor _ _ _ _
  · dsimp only
    split
    · exact h.solveFor _ _ _ _
    · exact h

theorem Alike.solveBoth (h : Alike s s') (line : Nat) (sides : Sides) (right : Expr) (m : Eliminations) :
    Alike (s.solveBoth line sides right m) (s'.solveBoth line sides right m) := by
  unfold SolveState.solveBoth
  split
  · exact h.solveSides _ _ _ _
  · rename_i d hd
    obtain ⟨open_, s₁, s₂, h₁, h₂, h⟩ := h.define line d
    rw [h₁, h₂]
    cases open_ with
    | true => exact h.solveSides _ _ _ _
    | false => exact h

theorem Alike.solveEquation (h : Alike s s') (m : Eliminations) (eq : Equation) :
    Alike (solveEquation m s eq) (solveEquation m s' eq) := by
  unfold SolveState.solveEquation
  split
  · exact h
  · split
    · exact h.complete _ _ _
    · exact h.solveBoth _ _ _ _

theorem Alike.eliminations (h : Alike s s') (equations : List Equation) :
    s'.eliminations equations = s.eliminations equations := by
  obtain ⟨t, n, b, rfl⟩ := h
  rfl

theorem Alike.solveRound (h : Alike s s') : Alike s.solveRound s'.solveRound := by
  have hfresh : Alike { s with changed := false } { s' with changed := false } := by
    obtain ⟨t, n, b, rfl⟩ := h
    exact ⟨t, n, b, rfl⟩
  have hequations : Equation.find s'.lines = Equation.find s.lines := by rw [h.lines_eq]
  unfold SolveState.solveRound
  dsimp only
  rw [hequations, h.eliminations]
  refine hfresh.foldl ?_ _
  intro s s' eq h
  exact h.solveEquation _ eq

theorem Alike.solveRounds (h : Alike s s') (n : Nat) : Alike (solveRounds n s) (solveRounds n s') := by
  induction n generalizing s s' with
  | zero => exact h
  | succ n ih =>
    have hround := h.solveRound
    have hchanged : s'.solveRound.changed = s.solveRound.changed := by
      obtain ⟨t, n, b, hn⟩ := hround
      rw [hn]
    unfold SolveState.solveRounds
    dsimp only
    rw [hchanged]
    split
    · exact ih hround
    · exact hround

/-! ### The last passes -/

theorem Alike.writeValue (h : Alike s s') (line : Nat) (l : ValueLine) (v : Float) :
    Alike (s.writeValue line l v) (s'.writeValue line l v) := by
  have hvalue : s'.settings.writeValue v l.decoration.style l.isFull l.decoration.base =
      s.settings.writeValue v l.decoration.style l.isFull l.decoration.base := by
    obtain ⟨t, n, b, rfl⟩ := h
    rfl
  unfold SolveState.writeValue
  rw [h.lineAt_eq, hvalue]
  exact h.setLine line _

theorem Alike.writeExpression (h : Alike s s') (line : Nat) (l : ValueLine) (source : Text) :
    Alike (s.writeExpression line l source) (s'.writeExpression line l source) := by
  unfold SolveState.writeExpression
  split
  · exact h
  · obtain ⟨r, s₁, s₂, h₁, h₂, h⟩ := h.evaluateText line source
    rw [h₁, h₂]
    cases r with
    | error p => exact h.report line p
    | ok v => exact h.writeValue line l v

theorem Alike.reportMissing (h : Alike s s') (line : Nat) (name : Text) (l : ValueLine) :
    Alike (s.reportMissing line name l) (s'.reportMissing line name l) := by
  have hfailures : s'.failures = s.failures := by
    obtain ⟨t, n, b, rfl⟩ := h
    rfl
  unfold SolveState.reportMissing
  rw [hfailures]
  split
  · exact h.report _ _
  · split
    · exact h.report _ _
    · exact h

theorem Alike.writeDeclaration (h : Alike s s') (reported : NameSet) (line : Nat) (name : Text) (l : ValueLine) :
    Alike (s.writeDeclaration reported line name l).1 (s'.writeDeclaration reported line name l).1 ∧
      (s.writeDeclaration reported line name l).2 = (s'.writeDeclaration reported line name l).2 := by
  have hcontext : s'.contextAt line = s.contextAt line := by
    obtain ⟨t, n, b, rfl⟩ := h
    rfl
  unfold SolveState.writeDeclaration
  rw [hcontext]
  dsimp only
  split
  · exact ⟨h, rfl⟩
  · split
    · exact ⟨(h.use _).writeValue _ _ _, rfl⟩
    · split
      · exact ⟨h.use _, rfl⟩
      · exact ⟨(h.use _).reportMissing _ _ _, rfl⟩

theorem Alike.writeOutputs (h : Alike s s') : Alike s.writeOutputs s'.writeOutputs := by
  have hspliced : Alike ((List.range s.lines.length).foldl (SolveState.spliceLine true) s)
      ((List.range s.lines.length).foldl (SolveState.spliceLine true) s') := by
    refine h.foldl ?_ _
    intro s s' line h
    exact h.spliceLine line true
  unfold SolveState.writeOutputs
  rw [h.lines_eq]
  dsimp only
  rw [hspliced.lines_eq]
  refine hspliced.foldl_pair ?_ _ _
  intro s s' reported found h
  unfold writeLine
  dsimp only
  split
  · exact ⟨h, rfl⟩
  · split
    · exact ⟨h.writeExpression _ _ _, rfl⟩
    · exact h.writeDeclaration _ _ _ _

theorem Alike.checkEquation (h : Alike s s') (eq : Equation) : Alike (s.checkEquation eq) (s'.checkEquation eq) := by
  have hcontext : s'.contextAt eq.firstLine = s.contextAt eq.firstLine := by
    obtain ⟨t, n, b, rfl⟩ := h
    rfl
  unfold SolveState.checkEquation
  rw [hcontext]
  split
  · exact h.report _ _
  · rename_i left hsides
    unfold SolveState.checkLeft
    obtain ⟨r, s₁, s₂, h₁, h₂, h⟩ := h.evaluate eq.firstLine left
    rw [h₁, h₂]
    cases r with
    | error e => exact h.report _ _
    | ok v => exact h
  · split
    · unfold SolveState.checkSides
      rw [hcontext]
      dsimp only
      split
      · exact (h.use _).report _ _
      · rw [(h.use _).balances_eq]
        split
        · exact h.use _
        · exact (h.use _).report _ _
    · exact h

theorem Alike.checkBalance (h : Alike s s') : Alike s.checkBalance s'.checkBalance := by
  unfold SolveState.checkBalance
  rw [h.lines_eq]
  exact h.foldl (fun s s' eq h => h.checkEquation eq) _

theorem Alike.checked (h : Alike s s') : Alike s.checked s'.checked :=
  ((h.loadFunctions.discover).solveRounds maxRounds).writeOutputs.checkBalance

/-- Where both states ask for a list or none does, the lists are the same. -/
theorem Alike.appendReferences (h : Alike s s') (hsettings : s'.settings = s.settings) :
    Alike s.appendReferences s'.appendReferences := by
  have hreferences : s'.references = s.references := by
    obtain ⟨t, n, b, rfl⟩ := h
    rfl
  unfold SolveState.appendReferences
  dsimp only
  rw [hreferences, hsettings, h.lines_eq]
  split
  · exact h
  · obtain ⟨t, n, b, rfl⟩ := h
    exact ⟨t, n, s.settings.appendReferences, rfl⟩

end Passes
end SolveState

/-- The solved text and the issues depend only on what is left of a document when its reference section and its
    computed values are taken out. -/
theorem solve_eq_of_clear_eq {t u : Text} (c : Context) (settings : Settings)
    (h : Clearing.output.clear (Reference.remove t) = Clearing.output.clear (Reference.remove u)) :
    (solve t c settings).text = (solve u c settings).text ∧ (solve t c settings).issues = (solve u c settings).issues := by
  have hstart : SolveState.Alike (SolveState.start t c settings) (SolveState.start u c settings) := by
    refine ⟨SolveState.shownIn (Text.lines (Reference.remove u)), 0, settings.appendReferences, ?_⟩
    unfold SolveState.start
    dsimp only
    rw [h]
  have hsettings : (SolveState.start u c settings).checked.settings = (SolveState.start t c settings).checked.settings :=
    (SolveState.settings_checked u c settings).trans (SolveState.settings_checked t c settings).symm
  have hrun : SolveState.Alike (SolveState.start t c settings).run (SolveState.start u c settings).run :=
    hstart.checked.appendReferences hsettings
  unfold solve
  dsimp only
  rw [hrun.lines_eq, hrun.issues_eq]
  exact ⟨rfl, rfl⟩

end Worksheet
