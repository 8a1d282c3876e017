import Worksheet.Proofs.Solve.Step
import Worksheet.Solve.Document

/-! The states that the second pass goes through. The first pass leaves a state in which every name that the document
    gives has a value; from there on values are only added, one equation after the other and round after round. -/

namespace Worksheet

/-- The sides of an equation that makes a definition: the defined name stands on one of them. -/
theorem Definition.sides_ofSides {left right : Expr} {d : Definition} (h : ofSides? ⟨left, some right⟩ = some d) :
    left = .var d.name ∧ right = d.expr ∨ left = d.expr ∧ right = .var d.name := by
  have hvar {e : Expr} {x : Text} (he : e.name? = some x) : e = .var x := by
    cases e <;> simp_all [Expr.name?]
  unfold ofSides? at h
  dsimp only at h
  cases hleft : left.name? with
  | some x =>
    rw [hleft] at h
    obtain rfl := Option.some.inj h
    exact .inl ⟨hvar hleft, rfl⟩
  | none =>
    rw [hleft] at h
    cases hright : right.name? with
    | none =>
      rw [hright] at h
      cases h
    | some x =>
      rw [hright] at h
      obtain rfl := Option.some.inj h
      exact .inr ⟨rfl, hvar hright⟩

namespace SolveState

/-! ### The first pass -/

/-- Names keep having values, and those that the document gives have one. No failure is put on record. -/
structure Gains (s s' : SolveState) : Prop where
  values : ∀ name, s.context.hasVariable name = true → s'.context.hasVariable name = true
  bound : s'.context.bound = s.context.bound
  failures : s'.failures = s.failures
  given : ∀ name, s'.given.contains name = true → s.given.contains name = true ∨ s'.context.hasVariable name = true

section Gains
variable {s s' s'' : SolveState}

theorem Gains.of_eq (hvalues : s'.context.values = s.context.values) (hbound : s'.context.bound = s.context.bound)
    (hfailures : s'.failures = s.failures) (hgiven : s'.given = s.given) : Gains s s' where
  values name h := by
    unfold Context.hasVariable at h ⊢
    rwa [hvalues]
  bound := hbound
  failures := hfailures
  given name h := .inl (hgiven ▸ h)

theorem Gains.refl (s : SolveState) : Gains s s := .of_eq rfl rfl rfl rfl

theorem Gains.trans (h : Gains s s') (h' : Gains s' s'') : Gains s s'' where
  values name hname := h'.values name (h.values name hname)
  bound := h'.bound.trans h.bound
  failures := h'.failures.trans h.failures
  given name hname := by
    rcases h'.given name hname with hname | hname
    · exact (h.given name hname).imp_right (h'.values name)
    · exact .inr hname

theorem Uses.gains (h : Uses s s') : Gains s s' := by
  obtain ⟨u, rfl⟩ := h
  exact .of_eq rfl rfl rfl rfl

theorem Gains.foldl {α : Type} {f : SolveState → α → SolveState} (hf : ∀ s a, Gains s (f s a)) (s : SolveState)
    (xs : List α) : Gains s (xs.foldl f s) := by
  induction xs generalizing s with
  | nil => exact .refl s
  | cons a xs ih => exact (hf s a).trans (ih _)

end Gains

section Discover
variable (s : SolveState) (line : Nat)

theorem gains_loadFunctions : Gains s s.loadFunctions := by
  unfold loadFunctions
  refine Gains.foldl (fun s f => ?_) s _
  unfold loadFunction
  split <;> exact .of_eq rfl rfl rfl rfl

theorem gains_spliceLine (reporting : Bool) : Gains s (spliceLine reporting s line) := by
  unfold spliceLine
  refine Gains.foldl (fun s e => ?_) s _
  obtain ⟨t, ht, heq | ⟨p, heq⟩ | ⟨x, heq⟩⟩ := s.spliceOne_cases line reporting e
  · rw [heq]
    exact ht.gains
  · rw [heq]
    exact ht.gains.trans (.of_eq rfl rfl rfl rfl)
  · rw [heq]
    exact ht.gains.trans (.of_eq rfl rfl rfl rfl)

theorem gains_accept (name : Text) (l : ValueLine) (first : Option Nat) (v : Float) :
    Gains s (s.accept name l line first v) := by
  have hvalue (other : Text) : (s.context.setVariable name v).hasVariable other =
      (decide (name = other) || s.context.hasVariable other) := Table.contains_insert _ _ _ _
  have haccepted : Gains s { s with
      context := s.context.setVariable name v
      given := if l.isOutput then s.given else s.given.add name } := by
    refine ⟨fun other hother => ?_, rfl, rfl, fun other hother => ?_⟩
    · show (s.context.setVariable name v).hasVariable other = true
      rw [hvalue, hother, Bool.or_true]
    · have hother : Table.contains (if l.isOutput then s.given else s.given.add name) other = true := hother
      split at hother
      · exact .inl hother
      · rw [NameSet.contains_add, Bool.or_eq_true] at hother
        refine hother.symm.imp_right fun heq => ?_
        show (s.context.setVariable name v).hasVariable other = true
        rw [hvalue, heq, Bool.true_or]
  unfold accept
  dsimp only
  split
  · split
    · exact .of_eq rfl rfl rfl rfl
    · exact haccepted
  · exact haccepted

theorem gains_declareValue (name : Text) (l : ValueLine) (first : Option Nat) :
    Gains s (s.declareValue name l line first) := by
  unfold declareValue
  split
  · exact .of_eq rfl rfl rfl rfl
  · have hshadow : Gains s { s with context := s.context.shadow name line } := by
      refine .of_eq ?_ ?_ rfl rfl <;> dsimp only [Context.shadow] <;> split <;> rfl
    have hvalue := ({ s with context := s.context.shadow name line } : SolveState).uses_valueOf line
      l.decoration.style l.valueText
    dsimp only
    split
    · rename_i p s₁ heq
      rw [heq] at hvalue
      exact (hshadow.trans hvalue.gains).trans (.of_eq rfl rfl rfl rfl)
    · rename_i v s₁ heq
      rw [heq] at hvalue
      exact (hshadow.trans hvalue.gains).trans (s₁.gains_accept line name l first v)

theorem gains_declare (name : Text) (l : ValueLine) : Gains s (s.declare name l line) := by
  have hadded : Gains s { s with sites := s.sites ++ [⟨name, l, line⟩] } := .of_eq rfl rfl rfl rfl
  unfold declare
  dsimp only
  split
  · exact hadded
  · exact hadded.trans (gains_declareValue _ line name l _)

theorem gains_discoverLine (found : List (Option ValueLine)) : Gains s (discoverLine (s, found) line).1 := by
  have hspliced := s.gains_spliceLine line false
  unfold discoverLine
  dsimp only
  split
  · split
    · exact hspliced.trans (gains_declare _ line _ _)
    · exact hspliced
  · exact hspliced

theorem gains_discover : Gains s s.discover := by
  have hfold (lines : List Nat) (found : List (Option ValueLine)) : Gains s (lines.foldl discoverLine (s, found)).1 := by
    induction lines generalizing s found with
    | nil => exact .refl s
    | cons line lines ih => exact (s.gains_discoverLine line found).trans (ih _ _)
  exact hfold _ _

end Discover

/-- The state in which the second pass over a document begins. -/
def discovered (text : Text) (c : Context) (settings : Settings) : SolveState :=
  (start text c settings).loadFunctions.discover

section Discovered
variable (text : Text) (c : Context) (settings : Settings)

theorem gains_discovered : Gains (start text c settings) (discovered text c settings) :=
  (gains_loadFunctions _).trans (gains_discover _)

/-- A name that the document gives has a value. -/
theorem given_discovered {name : Text} (h : (discovered text c settings).given.contains name = true) :
    (discovered text c settings).context.hasVariable name = true := by
  have hnone : (start text c settings).given.contains name = false := rfl
  exact ((gains_discovered text c settings).given name h).resolve_left (by simp [hnone])

/-- Nothing has failed when the second pass begins. -/
theorem failures_discovered : (discovered text c settings).failures = ∅ := (gains_discovered text c settings).failures

theorem boundKnown_discovered (h : c.BoundKnown) : (discovered text c settings).context.BoundKnown := by
  have hgains := gains_discovered text c settings
  intro name hname
  rw [hgains.bound] at hname
  exact hgains.values name (h name hname)

end Discovered

/-! ### The second pass -/

/-- The second pass that begins in `s₀` begins its round `n`, counted from 0, in the state `r`. -/
inductive Round (s₀ : SolveState) : Nat → SolveState → Prop
  | first : Round s₀ 0 s₀
  | next {n : Nat} {r : SolveState} (h : Round s₀ n r) (hn : n + 1 < maxRounds) (hchanged : r.solveRound.changed = true) :
      Round s₀ (n + 1) r.solveRound

/-- The second pass that begins in `s₀` comes to the equation `eq` in the state `s`, in a round with the
    eliminations `m`. -/
def Turn (s₀ : SolveState) (m : Eliminations) (eq : Equation) (s : SolveState) : Prop :=
  ∃ n r before after, Round s₀ n r ∧ Equation.find r.lines = before ++ eq :: after ∧
    m = r.eliminations (Equation.find r.lines) ∧ s = before.foldl (solveEquation m) { r with changed := false }

theorem turn_first {s₀ : SolveState} {eq : Equation} {after : List Equation} (h : Equation.find s₀.lines = eq :: after) :
    Turn s₀ (s₀.eliminations (eq :: after)) eq { s₀ with changed := false } :=
  ⟨0, s₀, [], after, .first, h, by rw [h], rfl⟩

/-- One state follows another in the second pass: names have learnt values, and nothing more is given. -/
structure Follows (s s' : SolveState) : Prop where
  learns : s.context.Learns s'.context
  given : s'.given = s.given

section Follows
variable {s₀ s s' s'' r : SolveState} {m : Eliminations} {eq : Equation}

theorem Follows.refl (s : SolveState) : Follows s s := ⟨.refl _, rfl⟩

theorem Follows.trans (h : Follows s s') (h' : Follows s' s'') : Follows s s'' :=
  ⟨h.learns.trans h'.learns, h'.given.trans h.given⟩

theorem Step.follows {line : Nat} (h : Step line s s') : Follows s s' := ⟨h.learns, h.given_eq⟩

theorem follows_foldl (m : Eliminations) (s : SolveState) (equations : List Equation) :
    Follows s (equations.foldl (solveEquation m) s) := by
  induction equations generalizing s with
  | nil => exact .refl s
  | cons eq equations ih => exact (step_solveEquation m s eq).follows.trans (ih _)

theorem follows_solveRound (s : SolveState) : Follows s s.solveRound := by
  have hfresh : Follows s { s with changed := false } := ⟨.refl _, rfl⟩
  exact hfresh.trans (follows_foldl _ _ _)

theorem follows_solveRounds (n : Nat) (s : SolveState) : Follows s (solveRounds n s) := by
  induction n generalizing s with
  | zero => exact .refl s
  | succ n ih =>
    unfold solveRounds
    dsimp only
    split
    · exact (follows_solveRound s).trans (ih _)
    · exact follows_solveRound s

theorem Round.follows {n : Nat} (h : Round s₀ n r) : Follows s₀ r := by
  induction h with
  | first => exact .refl s₀
  | next h hn hchanged ih => exact ih.trans (follows_solveRound _)

theorem Turn.follows (h : Turn s₀ m eq s) : Follows s₀ s := by
  obtain ⟨n, r, before, after, hround, -, -, rfl⟩ := h
  have hfresh : Follows r { r with changed := false } := ⟨.refl _, rfl⟩
  exact (hround.follows.trans hfresh).trans (follows_foldl m _ before)

/-- From the beginning of a round on, the rounds that are left are gone through. -/
theorem Round.solveEquations_eq {n : Nat} (h : Round s₀ n r) :
    ∃ k, n + (k + 1) = maxRounds ∧ s₀.solveEquations = solveRounds (k + 1) r := by
  induction h with
  | first => exact ⟨49, rfl, rfl⟩
  | @next n r h hn hchanged ih =>
    obtain ⟨k, hk, heq⟩ := ih
    obtain ⟨k, rfl⟩ : ∃ j, k = j + 1 := ⟨k - 1, by omega⟩
    refine ⟨k, by omega, heq.trans ?_⟩
    show (if r.solveRound.changed then solveRounds (k + 1) r.solveRound else r.solveRound) = _
    rw [if_pos hchanged]

/-- What the second pass ends with follows each of its steps. -/
theorem Turn.follows_solveEquations (h : Turn s₀ m eq s) : Follows (solveEquation m s eq) s₀.solveEquations := by
  obtain ⟨n, r, before, after, hround, hfind, rfl, rfl⟩ := h
  obtain ⟨k, -, heq⟩ := hround.solveEquations_eq
  have hround : r.solveRound = (before ++ eq :: after).foldl (solveEquation (r.eliminations (Equation.find r.lines)))
      { r with changed := false } := by
    rw [← hfind]
    rfl
  have hrest : Follows (solveEquation (r.eliminations (Equation.find r.lines))
      (before.foldl (solveEquation (r.eliminations (Equation.find r.lines))) { r with changed := false }) eq)
        r.solveRound := by
    rw [hround, List.foldl_append, List.foldl_cons]
    exact follows_foldl _ _ after
  rw [heq]
  unfold solveRounds
  dsimp only
  split
  · exact hrest.trans (follows_solveRounds k _)
  · exact hrest

/-- In the second pass over a document a name that the document gives has a value. -/
theorem Turn.given_known {text : Text} {c : Context} {settings : Settings}
    (h : Turn (discovered text c settings) m eq s) {name : Text} (hgiven : s.given.contains name = true) :
    s.context.hasVariable name = true := by
  have hfollows := h.follows
  rw [hfollows.given] at hgiven
  have hvalue := given_discovered text c settings hgiven
  obtain ⟨v, hv⟩ := Option.isSome_iff_exists.mp hvalue
  exact Option.isSome_iff_exists.mpr ⟨v, hfollows.learns.values name v hv⟩

/-! ### An equation with two sides -/

/-- Where a name that is given has a value, an equation that makes a definition finds its value or goes on with its
    sides, according to what is known; with neither, it does nothing. -/
theorem solveEquation_of_sides {left right : Expr}
    (hgiven : ∀ name, s.given.contains name = true → s.context.hasVariable name = true)
    (hsides : Equation.parseSides eq.text = .ok ⟨left, some right⟩) :
    solveEquation m s eq =
      match Definition.ofSides? ⟨left, some right⟩ with
      | none => s.solveSides eq.firstLine left right m
      | some d =>
        if (s.contextAt eq.firstLine).isKnown d.name then
          if ((s.contextAt eq.firstLine).unknowns [d.expr]).names = [] then s
          else s.solveSides eq.firstLine left right m
        else
          if ((s.contextAt eq.firstLine).unknowns [d.expr]).names = [] then s.evaluateDefinition eq.firstLine d
          else s := by
  unfold solveEquation
  rw [hsides]
  dsimp only
  unfold solveBoth
  cases Definition.ofSides? ⟨left, some right⟩ with
  | none => rfl
  | some d =>
    have hgiven : s.given.contains d.name = true → (s.contextAt eq.firstLine).isKnown d.name = true := by
      intro h
      exact Bool.or_eq_true_iff.mpr (.inl (hgiven d.name h))
    unfold define
    dsimp only
    cases hknown : (s.contextAt eq.firstLine).isKnown d.name with
    | true => cases ((s.contextAt eq.firstLine).unknowns [d.expr]).names <;> rfl
    | false =>
      have hnot : s.given.contains d.name = false := by
        cases hg : s.given.contains d.name with
        | false => rfl
        | true => simpa [hknown] using hgiven hg
      rw [hnot]
      cases ((s.contextAt eq.firstLine).unknowns [d.expr]).names <;> rfl

end Follows
end SolveState
end Worksheet
