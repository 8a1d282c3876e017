import Worksheet.Proofs.Solve.Check
import Worksheet.Proofs.Solve.SecondPass

/-! The evaluations of a solve, one after the other, each with the context that it is performed in. The trace of a
    function follows its steps through the states that they lead to. A solve uses the shared names that these evaluations
    use, and no others; and in the second and third pass their contexts are those of the states, on some line. -/

namespace Worksheet

/-! ### Usages -/

/-- A name that a usage lists. -/
inductive SharedName where
  | constant (name : Text)
  | function (name : Text)

namespace Usage

def lists (u : Usage) : SharedName → Bool
  | .constant name => u.constants.contains name
  | .function name => u.functions.contains name

theorem lists_union (u v : Usage) (x : SharedName) : (u.union v).lists x = (u.lists x || v.lists x) := by
  cases x <;> exact NameSet.contains_union _ _ _

theorem lists_empty (x : SharedName) : ({} : Usage).lists x = false := by cases x <;> rfl

end Usage

/-- An evaluation with its context. Looking up a name counts as evaluating it. -/
structure Performed where
  context : Context
  expr : Expr

def Performed.used (p : Performed) : Usage := (p.expr.eval p.context).used

/-- What is used after some evaluations. -/
def Tallies (u : Usage) (ps : List Performed) (u' : Usage) : Prop :=
  ∀ x, u'.lists x = (u.lists x || ps.any (·.used.lists x))

section Tallies
variable {u u' u'' : Usage} {ps qs : List Performed}

theorem Tallies.refl (u : Usage) : Tallies u [] u := fun x => by simp

theorem Tallies.one (u : Usage) (p : Performed) : Tallies u [p] (u.union p.used) := fun x => by
  simp [Usage.lists_union]

theorem Tallies.trans (h : Tallies u ps u') (h' : Tallies u' qs u'') : Tallies u (ps ++ qs) u'' := fun x => by
  rw [h', h, List.any_append, Bool.or_assoc]

theorem used_andThen {α β : Type} (x : Evaluation α) (f : α → Evaluation β) :
    (x >>= f).used = match x.result with
      | .ok v => x.used.union (f v).used
      | .error _ => x.used := by
  show (Evaluation.andThen x f).used = _
  unfold Evaluation.andThen
  cases x.result <;> rfl

end Tallies

namespace Context

/-- The context of an evaluation on a line of `c`: a name may be bound on trial. -/
def OnLine (c c' : Context) : Prop :=
  ∃ line : Nat, c' = c.setLine line ∨ ∃ x v, c' = (c.setLine line).bind x v

end Context

namespace SolveState

/-- What is performed from `s` to `t`, in contexts that may have learnt values since. -/
structure Performs (s : SolveState) (ps : List Performed) (t : SolveState) : Prop where
  tallies : Tallies s.used ps t.used
  contexts : ∀ p ∈ ps, ∃ c, s.context.Learns c ∧ c.OnLine p.context

section Performs
variable {s t t' : SolveState} {ps qs : List Performed}

theorem Performs.of_used_eq (h : t.used = s.used) : Performs s [] t :=
  ⟨h ▸ .refl _, fun _ hp => nomatch hp⟩

theorem Performs.refl (s : SolveState) : Performs s [] s := .of_used_eq rfl

theorem Performs.trans (h : Performs s ps t) (hlearns : s.context.Learns t.context) (h' : Performs t qs t') :
    Performs s (ps ++ qs) t' where
  tallies := h.tallies.trans h'.tallies
  contexts p hp := by
    rcases List.mem_append.mp hp with hp | hp
    · exact h.contexts p hp
    · obtain ⟨c, hc, hline⟩ := h'.contexts p hp
      exact ⟨c, hlearns.trans hc, hline⟩

/-- Evaluations that leave the context as it is. -/
theorem Performs.andThen (h : Performs s ps t) (hcontext : t.context = s.context) (h' : Performs t qs t') :
    Performs s (ps ++ qs) t' := h.trans (hcontext ▸ .refl _) h'

theorem Performs.used_eq (h : Performs s ps t) (hused : t'.used = t.used) : Performs s ps t' :=
  ⟨hused ▸ h.tallies, h.contexts⟩

theorem performs_evaluate (s : SolveState) (line : Nat) (e : Expr) :
    Performs s [⟨s.contextAt line, e⟩] (s.evaluate line e).2 where
  tallies := .one _ ⟨s.contextAt line, e⟩
  contexts p hp := by
    obtain rfl := List.mem_singleton.mp hp
    exact ⟨s.context, .refl _, line, .inl rfl⟩

end Performs

/-! ### Steps one after the other -/

/-- The evaluations of steps that are taken one after the other. -/
def traceAlong {σ α : Type} (step : σ → α → σ) (trace : σ → α → List Performed) : σ → List α → List Performed
  | _, [] => []
  | s, a :: as => trace s a ++ traceAlong step trace (step s a) as

theorem traceAlong_append {σ α : Type} (step : σ → α → σ) (trace : σ → α → List Performed) (s : σ) (as bs : List α) :
    traceAlong step trace s (as ++ bs) = traceAlong step trace s as ++ traceAlong step trace (as.foldl step s) bs := by
  induction as generalizing s with
  | nil => rfl
  | cons a as ih => rw [List.cons_append, traceAlong, ih, ← List.append_assoc, List.foldl_cons, traceAlong]

theorem mem_traceAlong_range {σ : Type} {step : σ → Nat → σ} {trace : σ → Nat → List Performed} {s : σ} {n : Nat}
    {p : Performed} : p ∈ traceAlong step trace s (List.range n) ↔
      ∃ i < n, p ∈ trace ((List.range i).foldl step s) i := by
  induction n with
  | zero => simp [traceAlong]
  | succ n ih =>
    rw [List.range_succ, traceAlong_append, List.mem_append, ih, traceAlong, traceAlong, List.append_nil]
    constructor
    · rintro (⟨i, hi, hp⟩ | hp)
      · exact ⟨i, Nat.lt_succ_of_lt hi, hp⟩
      · exact ⟨n, Nat.lt_succ_self n, hp⟩
    · rintro ⟨i, hi, hp⟩
      rcases Nat.lt_succ_iff_lt_or_eq.mp hi with hi | rfl
      · exact .inl ⟨i, hi, hp⟩
      · exact .inr hp

theorem tallies_traceAlong {σ α : Type} {step : σ → α → σ} {trace : σ → α → List Performed} (used : σ → Usage)
    (h : ∀ s a, Tallies (used s) (trace s a) (used (step s a))) (s : σ) (as : List α) :
    Tallies (used s) (traceAlong step trace s as) (used (as.foldl step s)) := by
  induction as generalizing s with
  | nil => exact .refl _
  | cons a as ih => exact (h s a).trans (ih _)

theorem performs_traceAlong {σ α : Type} {step : σ → α → σ} {trace : σ → α → List Performed} {state : σ → SolveState}
    (h : ∀ s a, Performs (state s) (trace s a) (state (step s a)))
    (hlearns : ∀ s a, (state s).context.Learns (state (step s a)).context) (s : σ) (as : List α) :
    Performs (state s) (traceAlong step trace s as) (state (as.foldl step s)) := by
  induction as generalizing s with
  | nil => exact .refl _
  | cons a as ih => exact (h s a).trans (hlearns s a) (ih _)

/-! ### Texts and limits -/

def traceText (s : SolveState) (line : Nat) (t : Text) : List Performed :=
  match parseExpr t with
  | .error _ => []
  | .ok e => [⟨s.contextAt line, e⟩]

def traceValue (s : SolveState) (line : Nat) (style : Style) (t : Text) : List Performed :=
  match Literal.read? t style with
  | some _ => []
  | none => s.traceText line t

def traceLimits (s : SolveState) (name : Text) : List Performed :=
  match s.sites.find? fun site => site.name == name && site.found.limits?.isSome with
  | none => []
  | some site =>
    match site.found.limits? with
    | none => []
    | some l =>
      let low := s.valueOf site.line site.found.decoration.style l.low
      s.traceValue site.line site.found.decoration.style l.low ++
        (if low.1.isOk then low.2.traceValue site.line site.found.decoration.style l.high else [])

section Texts
variable (s : SolveState) (line : Nat)

theorem performs_evaluateText (t : Text) : Performs s (s.traceText line t) (s.evaluateText line t).2 := by
  unfold evaluateText traceText
  cases parseExpr t with
  | error e => exact .refl s
  | ok e =>
    have hevaluate := s.performs_evaluate line e
    dsimp only
    split <;> rename_i heq <;> rw [heq] at hevaluate <;> exact hevaluate

theorem performs_valueOf (style : Style) (t : Text) : Performs s (s.traceValue line style t) (s.valueOf line style t).2 := by
  unfold valueOf traceValue
  cases Literal.read? t style with
  | some v => exact .refl s
  | none => exact s.performs_evaluateText line t

theorem performs_limitsOf (name : Text) : Performs s (s.traceLimits name) (s.limitsOf name).2 := by
  unfold limitsOf traceLimits
  cases s.sites.find? fun site => site.name == name && site.found.limits?.isSome with
  | none => exact .refl s
  | some site =>
    dsimp only
    cases site.found.limits? with
    | none => exact .refl s
    | some l =>
      have hlow := s.performs_valueOf site.line site.found.decoration.style l.low
      have hcontext := (s.uses_valueOf site.line site.found.decoration.style l.low).context
      dsimp only
      generalize s.valueOf site.line site.found.decoration.style l.low = low at hlow hcontext
      obtain ⟨p | v, t⟩ := low
      · exact hlow.andThen hcontext (.refl t)
      · have hhigh := hlow.andThen hcontext (t.performs_valueOf site.line site.found.decoration.style l.high)
        show Performs s (_ ++ t.traceValue site.line site.found.decoration.style l.high) _
        dsimp only
        split <;> rename_i heq <;> rw [heq] at hhigh <;> exact hhigh

end Texts

/-! ### The first pass -/

/-- The evaluations of inline expressions. -/
def traceSplice (reporting : Bool) (s : SolveState) (line : Nat) : List Performed :=
  traceAlong (spliceOne line reporting) (fun s e => s.traceText line e.source) s (Inline.find (s.lineAt line)).reverse

theorem performs_spliceOne (line : Nat) (reporting : Bool) (s : SolveState) (e : Inline) :
    Performs s (s.traceText line e.source) (spliceOne line reporting s e) := by
  have htext := s.performs_evaluateText line e.source
  unfold spliceOne
  split <;> rename_i heq <;> rw [heq] at htext
  · cases reporting with
    | false => exact htext
    | true => exact htext.used_eq rfl
  · exact htext.used_eq rfl

theorem performs_spliceLine (reporting : Bool) (s : SolveState) (line : Nat) :
    Performs s (traceSplice reporting s line) (spliceLine reporting s line) :=
  performs_traceAlong (performs_spliceOne line reporting)
    (fun s e => context_spliceOne line reporting s e ▸ .refl _) s _

/-! ### Declarations -/

def traceDeclareValue (s : SolveState) (name : Text) (l : ValueLine) (line : Nat) : List Performed :=
  if s.context.constants.contains name && !s.settings.shadowConstants then []
  else traceValue { s with context := s.context.shadow name line } line l.decoration.style l.valueText

def traceDeclare (s : SolveState) (name : Text) (l : ValueLine) (line : Nat) : List Performed :=
  if l.valueText.isEmpty then []
  else traceDeclareValue { s with sites := s.sites ++ [⟨name, l, line⟩] } name l line

/-- The state in which a line is classified, after its inline expressions, and the value lines then. -/
def spliced (x : SolveState × List (Option ValueLine)) (line : Nat) : SolveState × List (Option ValueLine) :=
  let s := x.1.spliceLine false line
  (s, if s.lineAt line = x.1.lineAt line then x.2 else Lines.classify s.lines)

/-- The declaration on a line. -/
def declaration? (x : SolveState × List (Option ValueLine)) (line : Nat) : Option (Text × ValueLine) :=
  ((spliced x line).2[line]?).join.bind fun l => l.name?.map fun name => (name, l)

def traceDiscoverLine (x : SolveState × List (Option ValueLine)) (line : Nat) : List Performed :=
  traceSplice false x.1 line ++
    match declaration? x line with
    | some (name, l) => traceDeclare (spliced x line).1 name l line
    | none => []

def traceDiscover (s : SolveState) : List Performed :=
  traceAlong discoverLine traceDiscoverLine (s, Lines.classify s.lines) (List.range s.lines.length)

theorem discoverLine_eq (x : SolveState × List (Option ValueLine)) (line : Nat) : discoverLine x line =
    match declaration? x line with
    | some (name, l) => ((spliced x line).1.declare name l line, (spliced x line).2)
    | none => spliced x line := by
  unfold discoverLine declaration?
  rw [spliced]
  dsimp only
  cases ((if (x.1.spliceLine false line).lineAt line = x.1.lineAt line then x.2
    else Lines.classify (x.1.spliceLine false line).lines)[line]?).join with
  | none => rfl
  | some l =>
    dsimp only [Option.bind_some]
    cases l.name? <;> rfl

theorem used_accept (s : SolveState) (name : Text) (l : ValueLine) (line : Nat) (first : Option Nat) (v : Float) :
    (s.accept name l line first v).used = s.used := by
  unfold accept
  dsimp only
  split
  · split <;> rfl
  · rfl

theorem tallies_declareValue (s : SolveState) (name : Text) (l : ValueLine) (line : Nat) (first : Option Nat) :
    Tallies s.used (s.traceDeclareValue name l line) (s.declareValue name l line first).used := by
  unfold declareValue traceDeclareValue
  by_cases h : (s.context.constants.contains name && !s.settings.shadowConstants) = true
  · rw [if_pos h, if_pos h]
    exact .refl _
  · rw [if_neg h, if_neg h]
    have hvalue := (performs_valueOf { s with context := s.context.shadow name line } line l.decoration.style
      l.valueText).tallies
    dsimp only at hvalue ⊢
    split <;> rename_i heq <;> rw [heq] at hvalue
    · exact hvalue
    · rw [used_accept]
      exact hvalue

theorem tallies_declare (s : SolveState) (name : Text) (l : ValueLine) (line : Nat) :
    Tallies s.used (s.traceDeclare name l line) (s.declare name l line).used := by
  unfold declare traceDeclare
  dsimp only
  split
  · exact .refl _
  · exact tallies_declareValue { s with sites := s.sites ++ [⟨name, l, line⟩] } name l line _

theorem tallies_discoverLine (x : SolveState × List (Option ValueLine)) (line : Nat) :
    Tallies x.1.used (traceDiscoverLine x line) (discoverLine x line).1.used := by
  have hsplice : Tallies x.1.used (traceSplice false x.1 line) (spliced x line).1.used :=
    (performs_spliceLine false x.1 line).tallies
  rw [discoverLine_eq, traceDiscoverLine]
  cases declaration? x line with
  | none => exact hsplice.trans (.refl _)
  | some d => exact hsplice.trans (tallies_declare _ _ _ _)

theorem tallies_discover (s : SolveState) : Tallies s.used s.traceDiscover s.discover.used :=
  tallies_traceAlong (fun x : SolveState × List (Option ValueLine) => x.1.used) tallies_discoverLine _ _

/-! ### The second pass -/

def traceComplete (s : SolveState) (eq : Equation) (left : Expr) (m : Eliminations) : List Performed :=
  if eq.braced then [] else [⟨s.contextAt eq.firstLine, m.eliminate eq.firstLine left⟩]

def traceEvaluateDefinition (s : SolveState) (line : Nat) (d : Definition) : List Performed :=
  let value := s.evaluate line d.expr
  ⟨s.contextAt line, d.expr⟩ :: if value.1.isOk then value.2.traceLimits d.name else []

def traceDefine (s : SolveState) (line : Nat) (d : Definition) : List Performed :=
  let c := s.contextAt line
  if c.isKnown d.name || s.given.contains d.name then []
  else if (c.unknowns [d.expr]).names.isEmpty then s.traceEvaluateDefinition line d
  else []

/-- The evaluations of two sides; without a value of the left one there is none of the right one. -/
def traceSides (c : Context) (left right : Expr) : List Performed :=
  ⟨c, left⟩ :: if (left.eval c).result.isOk then [⟨c, right⟩] else []

/-- The evaluations with `x` bound to some values on trial. -/
def traceTrials (c : Context) (x : Text) (left right : Expr) (points : List Float) : List Performed :=
  points.flatMap fun v => traceSides (c.bind x v) left right

def traceSolveFor (s : SolveState) (line : Nat) (x : Text) (left right : Expr) : List Performed :=
  let limits := (s.limitsOf x).1
  let c := (s.limitsOf x).2.contextAt line
  let f := fun v => valueOrNan (difference c x left right v)
  s.traceLimits x ++ (traceTrials c x left right (triedPoints f (trialPoints limits)) ++
    if (trialPoints limits).all fun p => vanishes (f p) then []
    else traceTrials c x left right (Root.find f limits).2.toList)

def traceSolveSides (s : SolveState) (line : Nat) (left right : Expr) (m : Eliminations) : List Performed :=
  match ((s.contextAt line).unknowns [left, right]).names with
  | [] => []
  | [x] => s.traceSolveFor line x left right
  | _ =>
    let left := m.eliminate line left
    let right := m.eliminate line right
    match ((s.contextAt line).unknowns [left, right]).names with
    | [x] => s.traceSolveFor line x left right
    | _ => []

def traceSolveBoth (s : SolveState) (line : Nat) (sides : Sides) (right : Expr) (m : Eliminations) : List Performed :=
  match Definition.ofSides? sides with
  | none => s.traceSolveSides line sides.left right m
  | some d =>
    s.traceDefine line d ++
      match s.define line d with
      | (true, s) => s.traceSolveSides line sides.left right m
      | (false, _) => []

def traceSolveEquation (m : Eliminations) (s : SolveState) (eq : Equation) : List Performed :=
  match Equation.parseSides eq.text with
  | .error _ => []
  | .ok sides =>
    match sides.right with
    | none => s.traceComplete eq sides.left m
    | some right => s.traceSolveBoth eq.firstLine sides right m

def traceSolveRound (s : SolveState) : List Performed :=
  let equations := Equation.find s.lines
  let m := s.eliminations equations
  traceAlong (solveEquation m) (traceSolveEquation m) { s with changed := false } equations

def traceSolveRounds : Nat → SolveState → List Performed
  | 0, _ => []
  | n + 1, s => s.traceSolveRound ++ if s.solveRound.changed then traceSolveRounds n s.solveRound else []

def traceSolveEquations (s : SolveState) : List Performed := traceSolveRounds maxRounds s

section SecondPass
variable (s : SolveState) (line : Nat)

theorem performs_complete (eq : Equation) (left : Expr) (m : Eliminations) :
    Performs s (s.traceComplete eq left m) (s.complete eq left m) := by
  unfold complete traceComplete
  by_cases h : eq.braced = true
  · rw [if_pos h, if_pos h]
    exact .refl s
  · rw [if_neg h, if_neg h]
    have hevaluate := s.performs_evaluate eq.firstLine (m.eliminate eq.firstLine left)
    split <;> rename_i heq <;> rw [heq] at hevaluate
    · exact hevaluate
    · split
      · exact hevaluate
      · exact hevaluate.used_eq rfl

theorem performs_checkLimits (name : Text) (v : Float) :
    Performs s (s.traceLimits name) (s.checkLimits name v line).2 := by
  have hlimits := s.performs_limitsOf name
  unfold checkLimits
  split <;> rename_i heq <;> rw [heq] at hlimits
  · exact hlimits
  · split
    · exact hlimits
    · exact hlimits.used_eq rfl

theorem performs_evaluateDefinition (d : Definition) :
    Performs s (s.traceEvaluateDefinition line d) (s.evaluateDefinition line d) := by
  have hevaluate := s.performs_evaluate line d.expr
  have hcontext : (s.evaluate line d.expr).2.context = s.context := rfl
  unfold evaluateDefinition traceEvaluateDefinition
  dsimp only
  generalize s.evaluate line d.expr = value at hevaluate hcontext
  obtain ⟨e | v, t⟩ := value
  · exact hevaluate.used_eq rfl
  · have hboth := hevaluate.andThen hcontext (t.performs_checkLimits line d.name v)
    show Performs s (_ :: t.traceLimits d.name) _
    dsimp only
    split <;> rename_i heq <;> rw [heq] at hboth
    · exact hboth.used_eq rfl
    · exact hboth

theorem performs_define (d : Definition) : Performs s (s.traceDefine line d) (s.define line d).2 := by
  unfold define traceDefine
  dsimp only
  split
  · exact .refl s
  · split
    · exact s.performs_evaluateDefinition line d
    · exact .refl s

/-- Two sides that are evaluated one after the other. -/
theorem tallies_traceSides {α : Type} (u : Usage) (c : Context) (left right : Expr) (f : Float → Float → α) :
    Tallies u (traceSides c left right)
      (u.union (left.eval c >>= fun l => right.eval c >>= fun r => pure (f l r) : Evaluation α).used) := by
  intro x
  rw [Usage.lists_union, used_andThen, traceSides, List.any_cons]
  congr 1
  show _ = ((left.eval c).used.lists x || _)
  cases hleft : (left.eval c).result with
  | error e => simp [Except.isOk, Except.toBool]
  | ok l =>
    dsimp only
    rw [Usage.lists_union, used_andThen]
    have hright : (right.eval c).used = (⟨c, right⟩ : Performed).used := rfl
    cases (right.eval c).result with
    | error e => simp [Except.isOk, Except.toBool, hright]
    | ok r =>
      have hpure : (pure (f l r) : Evaluation α).used = {} := rfl
      simp [Except.isOk, Except.toBool, hright, hpure, Usage.lists_union, Usage.lists_empty]

theorem mem_traceSides {c : Context} {left right : Expr} {p : Performed} (h : p ∈ traceSides c left right) :
    p.context = c := by
  rcases List.mem_cons.mp h with rfl | h
  · rfl
  · split at h
    · rw [List.mem_singleton.mp h]
    · cases h

theorem performs_useAt {c : Context} (hc : s.contextAt line = c) (x : Text) (left right : Expr) (points : List Float) :
    Performs s (traceTrials c x left right points) (s.useAt (difference c x left right) points) := by
  have hused (s : SolveState) :
      Tallies s.used (traceTrials c x left right points) (s.useAt (difference c x left right) points).used := by
    induction points generalizing s with
    | nil => exact .refl _
    | cons v points ih => exact (tallies_traceSides s.used (c.bind x v) left right (· - ·)).trans (ih _)
  refine ⟨hused s, fun p hp => ⟨s.context, .refl _, line, .inr ⟨x, ?_⟩⟩⟩
  obtain ⟨v, -, hv⟩ := List.mem_flatMap.mp hp
  exact ⟨v, (mem_traceSides hv).trans (congrArg (Context.bind · x v) hc.symm)⟩

theorem performs_solveFor (x : Text) (left right : Expr) :
    Performs s (s.traceSolveFor line x left right) (s.solveFor line x left right) := by
  have hlimits := s.performs_limitsOf x
  have hcontext := (s.uses_limitsOf x).context
  unfold solveFor traceSolveFor
  generalize s.limitsOf x = r at hlimits hcontext
  obtain ⟨limits, t⟩ := r
  dsimp only at hlimits hcontext ⊢
  refine hlimits.andThen hcontext ?_
  -- only where the function does not vanish at all trial points is a root searched for, in the same context
  have htried := t.performs_useAt line rfl x left right
    (triedPoints (fun v => valueOrNan (difference (t.contextAt line) x left right v)) (trialPoints limits))
  have hcontext := (t.uses_useAt (difference (t.contextAt line) x left right)
    (triedPoints (fun v => valueOrNan (difference (t.contextAt line) x left right v)) (trialPoints limits))).context
  split
  · rw [List.append_nil]
    exact htried.used_eq rfl
  · have hline := congrArg (Context.setLine · (line : Int)) hcontext
    have hasked := htried.andThen hcontext (performs_useAt _ line hline x left right
      (Root.find (fun v => valueOrNan (difference (t.contextAt line) x left right v)) limits).2.toList)
    split <;> exact hasked.used_eq rfl

theorem performs_solveSides (left right : Expr) (m : Eliminations) :
    Performs s (s.traceSolveSides line left right m) (s.solveSides line left right m) := by
  unfold solveSides traceSolveSides
  cases ((s.contextAt line).unknowns [left, right]).names with
  | nil => exact .refl s
  | cons x rest =>
    cases rest with
    | nil => exact s.performs_solveFor line x left right
    | cons y rest =>
      dsimp only
      cases ((s.contextAt line).unknowns [m.eliminate line left, m.eliminate line right]).names with
      | nil => exact .refl s
      | cons x rest =>
        cases rest with
        | nil => exact s.performs_solveFor line x _ _
        | cons y rest => exact .refl s

/-- Where the sides are gone on with, the definition has changed nothing. -/
theorem define_of_true {d : Definition} {t : SolveState} (h : s.define line d = (true, t)) : t = s := by
  unfold define at h
  dsimp only at h
  split at h
  · exact (congrArg Prod.snd h).symm
  · split at h <;> cases congrArg Prod.fst h

theorem performs_solveBoth (sides : Sides) (right : Expr) (m : Eliminations) :
    Performs s (s.traceSolveBoth line sides right m) (s.solveBoth line sides right m) := by
  unfold solveBoth traceSolveBoth
  cases Definition.ofSides? sides with
  | none => exact s.performs_solveSides line sides.left right m
  | some d =>
    have hdefine := s.performs_define line d
    dsimp only
    cases heq : s.define line d with
    | mk goesOn t =>
      rw [heq] at hdefine
      cases goesOn with
      | false =>
        rw [List.append_nil]
        exact hdefine
      | true =>
        obtain rfl := s.define_of_true line heq
        exact hdefine.andThen rfl (t.performs_solveSides line sides.left right m)

theorem performs_solveEquation (m : Eliminations) (eq : Equation) :
    Performs s (traceSolveEquation m s eq) (solveEquation m s eq) := by
  unfold solveEquation traceSolveEquation
  cases Equation.parseSides eq.text with
  | error e => exact .refl s
  | ok sides =>
    dsimp only
    cases sides.right with
    | none => exact s.performs_complete eq sides.left m
    | some right => exact s.performs_solveBoth eq.firstLine sides right m

theorem performs_solveRound : Performs s s.traceSolveRound s.solveRound := by
  have hfresh : Performs s [] { s with changed := false } := .of_used_eq rfl
  unfold solveRound traceSolveRound
  exact hfresh.andThen rfl (performs_traceAlong (fun s eq => s.performs_solveEquation _ eq)
    (fun s eq => (step_solveEquation _ s eq).learns) _ _)

theorem performs_solveRounds (n : Nat) : Performs s (traceSolveRounds n s) (solveRounds n s) := by
  -- a round may learn values, so the contexts of the later rounds extend that of `s`
  induction n generalizing s with
  | zero => exact .refl s
  | succ n ih =>
    have hround := s.performs_solveRound
    unfold solveRounds traceSolveRounds
    dsimp only
    split
    · exact hround.trans s.follows_solveRound.learns (ih _)
    · rw [List.append_nil]
      exact hround

theorem performs_solveEquations : Performs s s.traceSolveEquations s.solveEquations := s.performs_solveRounds maxRounds

end SecondPass

/-! ### The third pass -/

def traceWriteLine (x : SolveState × NameSet) (found : Option ValueLine × Nat) : List Performed :=
  match found.1 with
  | none => []
  | some l =>
    match l.subject with
    | .expression source => if !l.isOutput && !l.valueText.isEmpty then [] else x.1.traceText found.2 source
    | .declaration name _ => if !l.valueText.isEmpty then [] else [⟨x.1.contextAt found.2, .var name⟩]

def traceWriteOutputs (s : SolveState) : List Performed :=
  let lines := List.range s.lines.length
  let t := lines.foldl (spliceLine true) s
  traceAlong (spliceLine true) (traceSplice true) s lines ++
    traceAlong writeLine traceWriteLine (t, ∅) (Lines.classify t.lines).zipIdx

def traceCheckEquation (s : SolveState) (eq : Equation) : List Performed :=
  match Equation.parseSides eq.text with
  | .error _ => []
  | .ok ⟨left, none⟩ => [⟨s.contextAt eq.firstLine, left⟩]
  | .ok ⟨left, some right⟩ =>
    if ((s.contextAt eq.firstLine).unknowns [left, right]).names.isEmpty then
      traceSides (s.contextAt eq.firstLine) left right
    else []

def traceCheckBalance (s : SolveState) : List Performed :=
  traceAlong checkEquation traceCheckEquation s (Equation.find s.lines)

/-- The evaluations of the second pass and the third one. -/
def traceLater (s : SolveState) : List Performed :=
  s.traceSolveEquations ++ (s.solveEquations.traceWriteOutputs ++ s.solveEquations.writeOutputs.traceCheckBalance)

/-- All evaluations of a solve that begins in `s`. -/
def trace (s : SolveState) : List Performed :=
  s.loadFunctions.traceDiscover ++ s.loadFunctions.discover.traceLater

section ThirdPass
variable (s : SolveState) (line : Nat)

theorem performs_writeExpression (l : ValueLine) (source : Text) :
    Performs s (if !l.isOutput && !l.valueText.isEmpty then [] else s.traceText line source)
      (s.writeExpression line l source) := by
  have htext := s.performs_evaluateText line source
  unfold writeExpression
  split
  · exact .refl s
  · split <;> rename_i heq <;> rw [heq] at htext <;> exact htext.used_eq rfl

theorem used_reportMissing (name : Text) (l : ValueLine) : (s.reportMissing line name l).used = s.used := by
  unfold reportMissing
  split
  · rfl
  · split <;> rfl

/-- A name that is looked up uses what it uses as an expression. -/
theorem used_var (c : Context) (name : Text) : ((Expr.var name).eval c).used = (c.lookup name).used := by
  show (c.read name).used = _
  unfold Context.read Context.lookup
  cases c.find? name with
  | none => cases Builtin.value? name <;> rfl
  | some m => cases m <;> rfl

theorem performs_writeDeclaration (reported : NameSet) (name : Text) (l : ValueLine) :
    Performs s (if !l.valueText.isEmpty then [] else [⟨s.contextAt line, .var name⟩])
      (s.writeDeclaration reported line name l).1 := by
  have hlookup := s.performs_evaluate line (.var name)
  have hused : (s.evaluate line (.var name)).2.used = (s.use ((s.contextAt line).lookup name).used).used :=
    congrArg s.used.union (used_var _ name)
  unfold writeDeclaration
  split
  · exact .refl s
  · dsimp only
    split
    · exact hlookup.used_eq hused.symm
    · split
      · exact hlookup.used_eq hused.symm
      · exact hlookup.used_eq ((used_reportMissing _ _ _ _).trans hused.symm)

theorem performs_writeLine (x : SolveState × NameSet) (found : Option ValueLine × Nat) :
    Performs x.1 (traceWriteLine x found) (writeLine x found).1 := by
  unfold writeLine traceWriteLine
  cases found.1 with
  | none => exact .refl x.1
  | some l =>
    dsimp only
    cases l.subject with
    | expression source => exact x.1.performs_writeExpression _ _ _
    | declaration name _ => exact x.1.performs_writeDeclaration _ _ _ _

theorem context_spliceLine (reporting : Bool) : (spliceLine reporting s line).context = s.context :=
  foldl_context (context_spliceOne line reporting) s _

theorem performs_writeOutputs : Performs s s.traceWriteOutputs s.writeOutputs := by
  have hsplice := performs_traceAlong (performs_spliceLine true)
    (fun s line => context_spliceLine s line true ▸ .refl _) s (List.range s.lines.length)
  have hcontext := foldl_context (fun s line => context_spliceLine s line true) s (List.range s.lines.length)
  unfold writeOutputs traceWriteOutputs
  refine hsplice.andThen hcontext ?_
  exact performs_traceAlong performs_writeLine (fun x found => context_writeLine x found ▸ .refl _) (_, ∅) _

theorem performs_checkLeft (left : Expr) :
    Performs s [⟨s.contextAt line, left⟩] (s.checkLeft line left) := by
  have hevaluate := s.performs_evaluate line left
  unfold checkLeft
  split <;> rename_i heq <;> rw [heq] at hevaluate <;> exact hevaluate.used_eq rfl

theorem performs_checkSides (eq : Equation) (left right : Expr) :
    Performs s (traceSides (s.contextAt eq.firstLine) left right) (s.checkSides eq left right) := by
  have hboth : Performs s (traceSides (s.contextAt eq.firstLine) left right)
      (s.use (do return (← left.eval (s.contextAt eq.firstLine), ← right.eval (s.contextAt eq.firstLine)) :
        Evaluation (Float × Float)).used) :=
    ⟨tallies_traceSides s.used _ left right Prod.mk,
      fun p hp => ⟨s.context, .refl _, eq.firstLine, .inl (mem_traceSides hp)⟩⟩
  unfold checkSides
  dsimp only
  split
  · exact hboth.used_eq rfl
  · split <;> exact hboth.used_eq rfl

theorem performs_checkEquation (eq : Equation) : Performs s (s.traceCheckEquation eq) (s.checkEquation eq) := by
  unfold checkEquation traceCheckEquation
  cases Equation.parseSides eq.text with
  | error e => exact .of_used_eq rfl
  | ok sides =>
    obtain ⟨left, _ | right⟩ := sides
    · exact s.performs_checkLeft eq.firstLine left
    · dsimp only
      split
      · exact s.performs_checkSides eq left right
      · exact .refl s

theorem performs_checkBalance : Performs s s.traceCheckBalance s.checkBalance :=
  performs_traceAlong performs_checkEquation (fun s eq => (s.checked_checkEquation eq).context ▸ .refl _) s _

theorem performs_later : Performs s s.traceLater s.solveEquations.writeOutputs.checkBalance := by
  refine s.performs_solveEquations.trans ?_ ?_
  · exact s.follows_solveRounds maxRounds |>.learns
  · exact s.solveEquations.performs_writeOutputs.andThen (context_writeOutputs _) (performs_checkBalance _)

end ThirdPass

/-- Loading the functions of the document changes nothing else but the reports. -/
theorem loadFunctions_eq (s : SolveState) : ∃ functions locals issues, s.loadFunctions =
    { s with context := { s.context with functions }, localFunctions := locals, issues } := by
  unfold loadFunctions
  generalize FunctionSource.find s.lines = sources
  induction sources generalizing s with
  | nil => exact ⟨s.context.functions, s.localFunctions, s.issues, rfl⟩
  | cons f sources ih =>
    obtain ⟨functions, locals, issues, heq⟩ := ih (s.loadFunction f)
    rw [List.foldl_cons, heq]
    unfold loadFunction
    split <;> exact ⟨functions, locals, issues, rfl⟩

/-- A solve uses the shared names that its evaluations use, and lists no others. -/
theorem lists_used_run (s : SolveState) (x : SharedName) :
    s.run.used.lists x = (s.used.lists x || s.trace.any (·.used.lists x)) := by
  have hload : s.loadFunctions.used = s.used := by
    obtain ⟨functions, locals, issues, heq⟩ := s.loadFunctions_eq
    rw [heq]
  have hfirst := s.loadFunctions.tallies_discover
  have hlater := s.loadFunctions.discover.performs_later.tallies
  have happend (t : SolveState) : t.appendReferences.used = t.used := by
    unfold appendReferences
    dsimp only
    split <;> rfl
  rw [run, happend, ← hload]
  exact hfirst.trans hlater x

end SolveState
end Worksheet
