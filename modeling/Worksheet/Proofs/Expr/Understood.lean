import Worksheet.Context.Shared
import Worksheet.Proofs.Expr.Takes
import Worksheet.Proofs.Expr.Unknowns
import Worksheet.Solve.Definition

/-! What the parser builds, the evaluator understands. The operators that tokens can stand for are those that have a value,
    and every tree that the parser puts together has no others; nor has one that comes out of substitution or of
    undoing an operator. In a context whose functions have been parsed, such a tree is evaluated without an operator that
    has no meaning, whatever the functions call. -/

namespace Worksheet

/-! ### Operators with a meaning -/

/-- The operator has a value on every number. -/
def PrefixOp.IsUnderstood (op : PrefixOp) : Prop := ∀ v, (op.value? v).isSome = true

/-- The operator has a value on every two numbers. -/
def BinaryOp.IsUnderstood (op : BinaryOp) : Prop := ∀ l r, (op.value? l r).isSome = true

/-- The parser and the evaluator know the same prefix operators. -/
theorem PrefixOp.mem_known_iff {op : PrefixOp} : op ∈ known ↔ op.IsUnderstood := by
  cases op with
  | other symbol => exact iff_of_false (by simp [known]) fun h => nomatch h 0
  | _ => exact iff_of_true (by decide) fun _ => rfl

/-- They know the same binary operators. -/
theorem BinaryOp.mem_known_iff {op : BinaryOp} : op ∈ known ↔ op.IsUnderstood := by
  cases op with
  | other symbol => exact iff_of_false (by simp [known]) fun h => nomatch h 0 0
  | _ => exact iff_of_true (by decide) fun _ _ => rfl

namespace Expr

/-- All operators of the tree have a meaning. A prefix operator has one operand and a binary one has two by the shape of
    the trees. -/
inductive Understood : Expr → Prop
  | number {v : Float} {base : Nat} : Understood (.number v base)
  | var {x : Text} : Understood (.var x)
  | unary {op : PrefixOp} {e : Expr} (hop : op.IsUnderstood) (h : Understood e) : Understood (.unary op e)
  | binary {op : BinaryOp} {l r : Expr} (hop : op.IsUnderstood) (hl : Understood l) (hr : Understood r) :
    Understood (.binary op l r)
  | call {f : Text} {args : List Expr} (h : ∀ e ∈ args, Understood e) : Understood (.call f args)

end Expr

/-! ### Parsing -/

namespace Parser

/-- A pending operator has a meaning. -/
def Pending.IsUnderstood : Pending → Prop
  | .prefixOp op _ => op.IsUnderstood
  | .binaryOp op _ => op.IsUnderstood
  | .group _ | .call _ _ => True

/-- All operators on the stacks have a meaning. -/
structure Legible (es : List Expr) (ps : List Pending) : Prop where
  operands : ∀ e ∈ es, e.Understood
  pending : ∀ p ∈ ps, p.IsUnderstood

section Legible
variable {es : List Expr} {ps : List Pending} {p : Pending} {e : Expr}

theorem Legible.push (h : Legible es ps) (he : e.Understood) : Legible (e :: es) ps :=
  ⟨List.forall_mem_cons.mpr ⟨he, h.operands⟩, h.pending⟩

theorem Legible.wait (h : Legible es ps) (hp : p.IsUnderstood) : Legible es (p :: ps) :=
  ⟨h.operands, List.forall_mem_cons.mpr ⟨hp, h.pending⟩⟩

theorem Legible.tail (h : Legible es (p :: ps)) : Legible es ps := ⟨h.operands, (List.forall_mem_cons.mp h.pending).2⟩

theorem Legible.completes {a b : List Expr × List Pending} (h : Legible a.1 a.2) (hone : Completes a b) :
    Legible b.1 b.2 := by
  cases hone with
  | prefixOp =>
    obtain ⟨he, hes⟩ := List.forall_mem_cons.mp h.operands
    obtain ⟨hop, hps⟩ := List.forall_mem_cons.mp h.pending
    exact Legible.push ⟨hes, hps⟩ (.unary hop he)
  | binaryOp =>
    obtain ⟨hr, hes⟩ := List.forall_mem_cons.mp h.operands
    obtain ⟨hl, hes⟩ := List.forall_mem_cons.mp hes
    obtain ⟨hop, hps⟩ := List.forall_mem_cons.mp h.pending
    exact Legible.push ⟨hes, hps⟩ (.binary hop hl hr)

theorem Legible.completing {a b : List Expr × List Pending} (h : Legible a.1 a.2) (hall : Completing a b) :
    Legible b.1 b.2 := by
  induction hall with
  | refl => exact h
  | tail _ hone ih => exact ih.completes hone

theorem Legible.takes {s s' : State} {t : Token} (h : Legible s.operands s.pending) (ht : Takes t s s') :
    Legible s'.operands s'.pending := by
  cases ht with
  | dress => exact h
  | operand he =>
    cases he with
    | number => exact h.push .number
    | name => exact h.push .var
  | prefixOp hop => exact h.wait (PrefixOp.mem_known_iff.mp (PrefixOp.mem_known_of_ofSymbol? hop))
  | binaryOp hop hall => exact (h.completing hall).wait (BinaryOp.mem_known_iff.mp (BinaryOp.mem_known_of_ofSymbol? hop))
  | group => exact h.wait trivial
  | call => exact Legible.wait ⟨(List.forall_mem_cons.mp h.operands).2, h.pending⟩ trivial
  | separator hall => exact h.completing hall
  | closeGroup hall => exact (h.completing hall).tail
  | closeEmpty hall => exact (h.completing hall).tail.push (.call fun e he => nomatch he)
  | closeCall hall =>
    have hclosed := (h.completing hall).tail
    obtain ⟨hargs, hes⟩ := List.forall_mem_append.mp hclosed.operands
    exact Legible.push ⟨hes, hclosed.pending⟩ (.call fun e he => hargs e (List.mem_reverse.mpr he))

end Legible

/-- The parser builds trees with a meaning only. -/
theorem understood_of_parseTokens {ts : List Token} {e : Expr} (h : parseTokens ts = .ok e) : e.Understood := by
  have hstart : Legible [] [] := ⟨(fun e he => nomatch he), (fun p hp => nomatch hp)⟩
  unfold parseTokens at h
  split at h
  · rename_i s hs
    have hlegible : Legible s.operands s.pending :=
      run_keeps (P := fun s => Legible s.operands s.pending) hstart (fun _ _ _ _ h ht => h.takes ht) hs
    have hend := hlegible.completing (completing_of_conclude h).2
    exact hend.operands e (List.mem_singleton_self e)
  · cases h

end Parser

/-! ### Putting trees together -/

namespace Expr
variable {e : Expr} {subs : Text → Option Expr}

mutual
theorem Understood.substitute (hsubs : ∀ x d, subs x = some d → d.Understood) :
    ∀ e : Expr, e.Understood → (e.substitute subs).Understood
  | .number _ _, _ => .number
  | .var x, _ => by
    unfold Expr.substitute
    cases hx : subs x with
    | none => exact .var
    | some d => exact hsubs x d hx
  | .unary op e, .unary hop h => .unary hop (Understood.substitute hsubs e h)
  | .binary op l r, .binary hop hl hr =>
    .binary hop (Understood.substitute hsubs l hl) (Understood.substitute hsubs r hr)
  | .call f args, .call h => .call (Understood.substituteArgs hsubs args h)

theorem Understood.substituteArgs (hsubs : ∀ x d, subs x = some d → d.Understood) :
    ∀ args : List Expr, (∀ e ∈ args, e.Understood) → ∀ e ∈ Expr.substituteArgs subs args, e.Understood
  | [], _ => fun e he => nomatch he
  | e :: es, h => by
    obtain ⟨he, hes⟩ := List.forall_mem_cons.mp h
    unfold Expr.substituteArgs
    exact List.forall_mem_cons.mpr ⟨Understood.substitute hsubs e he, Understood.substituteArgs hsubs es hes⟩
end

open Definition in
theorem Understood.undoLeft {op : BinaryOp} {result other : Expr} (hresult : result.Understood)
    (hother : other.Understood) (h : undoLeft? op result other = some e) : e.Understood := by
  unfold undoLeft? at h
  split at h
  · cases h
    exact .binary (fun _ _ => rfl) hresult hother
  · cases h
    exact .binary (fun _ _ => rfl) hresult hother
  · cases h
    exact .binary (fun _ _ => rfl) hresult hother
  · cases h
    exact .binary (fun _ _ => rfl) hresult hother
  · cases h
    exact .binary (fun _ _ => rfl) hresult (.binary (fun _ _ => rfl) .number hother)
  · cases h

open Definition in
theorem Understood.undoRight {op : BinaryOp} {result other : Expr} (hresult : result.Understood)
    (hother : other.Understood) (h : undoRight? op result other = some e) : e.Understood := by
  unfold undoRight? at h
  split at h
  · cases h
    exact .binary (fun _ _ => rfl) hresult hother
  · cases h
    exact .binary (fun _ _ => rfl) hother hresult
  · cases h
    exact .binary (fun _ _ => rfl) hresult hother
  · cases h
    exact .binary (fun _ _ => rfl) hother hresult
  · cases h

/-- The trees that come about: the parser builds them, expressions are put in place of their variables, an operand is
    taken by itself, and an operator is undone. -/
inductive Built : Expr → Prop
  | parsed {ts : List Token} {e : Expr} (h : parseTokens ts = .ok e) : Built e
  | substituted {e : Expr} {subs : Text → Option Expr} (he : Built e) (hsubs : ∀ x d, subs x = some d → Built d) :
    Built (e.substitute subs)
  | left {op : BinaryOp} {l r : Expr} (h : Built (.binary op l r)) : Built l
  | right {op : BinaryOp} {l r : Expr} (h : Built (.binary op l r)) : Built r
  | undoneLeft {op : BinaryOp} {result other e : Expr} (hresult : Built result) (hother : Built other)
    (h : Definition.undoLeft? op result other = some e) : Built e
  | undoneRight {op : BinaryOp} {result other e : Expr} (hresult : Built result) (hother : Built other)
    (h : Definition.undoRight? op result other = some e) : Built e

theorem Built.understood (h : Built e) : e.Understood := by
  induction h with
  | parsed h => exact Parser.understood_of_parseTokens h
  | substituted _ _ he hsubs => exact Understood.substitute hsubs _ he
  | left _ ih =>
    cases ih with
    | binary _ hl _ => exact hl
  | right _ ih =>
    cases ih with
    | binary _ _ hr => exact hr
  | undoneLeft _ _ h hresult hother => exact hresult.undoLeft hother h
  | undoneRight _ _ h hresult hother => exact hresult.undoRight hother h

end Expr

/-! ### Evaluating -/

/-- An undefined variable, a division by zero, an unknown function, a wrong number of arguments, or a recursion too
    deep; not an operator without a meaning. -/
def EvalError.IsRegular : EvalError → Prop
  | undefinedVariable _ | divisionByZero | unknownFunction _ | tooFewArguments _ _ | tooManyArguments _ _
  | conditionArguments | tooDeep _ => True
  | unknownOperator _ => False

namespace Evaluation
variable {α β : Type}

/-- If the evaluation ends in an error, it is a regular one. -/
def Regular (x : Evaluation α) : Prop := ∀ e, x.result = .error e → e.IsRegular

theorem regular_pure (v : α) : Regular (pure v) := fun _ h => nomatch h

theorem regular_fail {e : EvalError} (h : e.IsRegular) : Regular (fail e : Evaluation α) := by
  rintro _ ⟨⟩
  exact h

theorem regular_ofOption {o : Option α} {e : EvalError} (h : o.isSome = true) : Regular (ofOption e o) := by
  obtain ⟨v, rfl⟩ := Option.isSome_iff_exists.mp h
  exact regular_pure v

theorem Regular.bind {x : Evaluation α} {f : α → Evaluation β} (h : Regular x) (hf : ∀ v, Regular (f v)) :
    Regular (x >>= f) := by
  intro e he
  rw [result_bind] at he
  cases hx : x.result with
  | error e' =>
    rw [hx] at he
    obtain rfl := Except.error.inj he
    exact h e' hx
  | ok v =>
    rw [hx] at he
    exact hf v e he

end Evaluation

open Evaluation

theorem BinaryOp.regular_evaluate {op : BinaryOp} (h : op.IsUnderstood) (l r : Float) : Regular (op.evaluate l r) := by
  unfold evaluate
  split
  · exact regular_fail trivial
  · exact regular_ofOption (h l r)

namespace Context

theorem regular_read (c : Context) (x : Text) : Regular (c.read x) := by
  intro e he
  rw [result_read] at he
  split at he
  · cases he
  · split at he <;> cases he
    trivial

theorem regular_checkArguments (b : Builtin) (f : Text) (count : Nat) : Regular (checkArguments b f count) := by
  unfold checkArguments
  split
  · exact regular_fail trivial
  · split
    · split
      · exact regular_fail trivial
      · exact regular_pure ()
    · exact regular_pure ()

/-- The bodies of the functions have been parsed. -/
def Parsed (c : Context) : Prop := ∀ f fn, c.function? f = some fn → ∃ ts, parseTokens ts = .ok fn.body

/-- The functions of a call are those outside. -/
theorem function?_enter (c : Context) (params : List Text) (args : List Float) (f : Text) :
    (c.enter params args).function? f = c.function? f := by
  unfold function?
  exact congrArg (Table.find? · (Text.lower f)) (functions_bindAll { c with depth := c.depth + 1 } _)

theorem Parsed.enter {c : Context} (h : c.Parsed) (params : List Text) (args : List Float) :
    (c.enter params args).Parsed := by
  intro f fn hf
  rw [function?_enter] at hf
  exact h f fn hf

end Context

namespace Expr
open Context
variable {run : Option Runner} {c : Context}

/-- Functions are run without an operator that has no meaning. -/
def RunsRegular (run : Option Runner) : Prop := ∀ r, run = some r → ∀ fn vs, fn.body.Understood → Regular (r fn vs)

mutual
theorem regular_evalWith (hc : c.Parsed) (hrun : RunsRegular run) :
    ∀ e : Expr, e.Understood → Regular (evalWith run c e)
  | .number v _, _ => by
    unfold evalWith
    exact regular_pure v
  | .var x, _ => by
    unfold evalWith
    exact regular_read c x
  | .unary op e, .unary hop h => by
    unfold evalWith
    exact (regular_evalWith hc hrun e h).bind fun v => regular_ofOption (hop v)
  | .binary op l r, .binary hop hl hr => by
    have hl := regular_evalWith hc hrun l hl
    have hr := regular_evalWith hc hrun r hr
    by_cases hand : op = .and
    · subst hand
      unfold evalWith
      refine hl.bind fun v => ?_
      split
      · exact hr.bind fun w => regular_pure _
      · exact regular_pure _
    by_cases hor : op = .or
    · subst hor
      unfold evalWith
      refine hl.bind fun v => ?_
      split
      · exact regular_pure _
      · exact hr.bind fun w => regular_pure _
    · rw [evalWith_binary run c hand hor]
      exact hl.bind fun v => hr.bind fun w => BinaryOp.regular_evaluate hop v w
  | .call f args, .call h => by
    have hargs := regular_evalArgs hc hrun args h
    have hif := regular_evalIf hc hrun args h
    unfold evalWith
    cases hf : c.function? f with
    | some fn =>
      refine Regular.bind (fun _ he => nomatch he) fun _ => ?_
      cases hr : run with
      | none => exact regular_fail trivial
      | some r =>
        refine (hr ▸ hargs).bind fun vs => ?_
        obtain ⟨ts, hts⟩ := hc f fn hf
        exact hrun r hr fn vs (Parser.understood_of_parseTokens hts)
    | none =>
      dsimp only
      split
      · exact hif
      · split
        · exact regular_fail trivial
        · exact (regular_checkArguments _ _ _).bind fun _ => hargs.bind fun vs => regular_pure _

theorem regular_evalArgs (hc : c.Parsed) (hrun : RunsRegular run) :
    ∀ args : List Expr, (∀ e ∈ args, e.Understood) → Regular (evalArgs run c args)
  | [], _ => by
    unfold evalArgs
    exact regular_pure []
  | e :: es, h => by
    obtain ⟨he, hes⟩ := List.forall_mem_cons.mp h
    unfold evalArgs
    exact (regular_evalWith hc hrun e he).bind fun v => (regular_evalArgs hc hrun es hes).bind fun vs => regular_pure _

theorem regular_evalIf (hc : c.Parsed) (hrun : RunsRegular run) :
    ∀ args : List Expr, (∀ e ∈ args, e.Understood) → Regular (evalIf run c args)
  | [cond, x], h => by
    have hcond := regular_evalWith hc hrun cond (h cond (by simp))
    have hx := regular_evalWith hc hrun x (h x (by simp))
    unfold evalIf
    refine hcond.bind fun v => ?_
    split
    · exact hx
    · exact regular_pure _
  | [cond, x, y], h => by
    have hcond := regular_evalWith hc hrun cond (h cond (by simp))
    have hx := regular_evalWith hc hrun x (h x (by simp))
    have hy := regular_evalWith hc hrun y (h y (by simp))
    unfold evalIf
    refine hcond.bind fun v => ?_
    split
    · exact hx
    · exact hy
  | [], _ | [_], _ | _ :: _ :: _ :: _ :: _, _ => by
    unfold evalIf
    exact regular_fail trivial
end

theorem runsRegular_runner (remaining : Nat) (hc : c.Parsed) : RunsRegular (runner remaining c) := by
  induction remaining generalizing c with
  | zero => exact fun r hr => nomatch hr
  | succ remaining ih =>
    intro r hr fn vs hbody
    obtain rfl := Option.some.inj hr
    have hinner := hc.enter fn.params vs
    exact regular_evalWith hinner (ih hinner) fn.body hbody

/-- Every tree that comes about has only operators with a meaning, and where the functions have been parsed its evaluation
    never meets one without. -/
theorem Built.eval_regular {e : Expr} (h : e.Built) :
    e.Understood ∧ ∀ c : Context, c.Parsed → ∀ err, (e.eval c).result = .error err → err.IsRegular := by
  have hunderstood := h.understood
  refine ⟨hunderstood, fun c hc => ?_⟩
  exact regular_evalWith hc (runsRegular_runner _ hc) e hunderstood

end Expr

/-! ### Shared functions -/

namespace Shared

/-- The functions of a shared context have been parsed. -/
theorem parsed_context {constantsText functionsText : Text} {surroundings : Surroundings} {c : Context}
    (h : context constantsText functionsText surroundings = .ok c) : c.Parsed := by
  have hadd {fs : List FunctionSource} {table table' : Table UserFunction}
      (htable : ∀ f fn, table.find? f = some fn → ∃ ts, parseTokens ts = .ok fn.body)
      (hfold : fs.foldlM addFunction table = .ok table') :
      ∀ f fn, table'.find? f = some fn → ∃ ts, parseTokens ts = .ok fn.body := by
    induction fs generalizing table with
    | nil =>
      cases hfold
      exact htable
    | cons source fs ih =>
      rw [List.foldlM_cons] at hfold
      unfold addFunction at hfold
      cases hbody : parseExpr source.body with
      | error e =>
        rw [hbody] at hfold
        cases hfold
      | ok body =>
        rw [hbody] at hfold
        refine ih (fun f fn hf => ?_) hfold
        rw [Table.find?_insert] at hf
        split at hf
        · cases hf
          exact ⟨_, hbody⟩
        · exact htable f fn hf
  unfold context at h
  split at h
  · rename_i table htable
    cases h
    intro f fn hf
    exact hadd (fun f fn hnone => by cases (Table.find?_empty f).symm.trans hnone) htable (Text.lower f) fn hf
  · cases h

end Shared

/-- From `x * a = a` the value `a / a` of `x`, and in place of `a` a call of a shared function that has an undefined
    variable in its body. -/
theorem Expr.Built.eval_regular_quotient :
    let a := Expr.var ['a']
    let call := Expr.call ['f'] [.unary .not (.var ['b'])]
    let subs := fun x => if x = ['a'] then some call else none
    ∃ (c : Context) (e : Expr), Shared.context [] "f(n) = n * m".toList {} = .ok c ∧
      parseTokens (tokenize ['a']) = .ok a ∧ parseTokens (tokenize "f(!b)".toList) = .ok call ∧
      Definition.undoLeft? .multiply a a = some e ∧ (e.substitute subs).Understood ∧
      ((e.substitute subs).eval (c.setVariable ['b'] 1.0)).result = .error (.undefinedVariable ['m']) ∧
      EvalError.IsRegular (.undefinedVariable ['m']) := by
  intro a call subs
  have ha : parseTokens (tokenize ['a']) = .ok a := by rfl
  have hcall : parseTokens (tokenize "f(!b)".toList) = .ok call := by rfl
  have hundo : Definition.undoLeft? .multiply a a = some (.binary .divide a a) := rfl
  have hbuilt : (Expr.substitute subs (.binary .divide a a)).Built := by
    refine .substituted (.undoneLeft (.parsed ha) (.parsed ha) hundo) fun x d hd => ?_
    by_cases hx : x = ['a']
    · obtain rfl : call = d := by simpa [subs, hx] using hd
      exact .parsed hcall
    · simp [subs, hx] at hd
  obtain ⟨hunderstood, hregular⟩ := Expr.Built.eval_regular hbuilt
  let body := Expr.binary .multiply (.var ['n']) (.var ['m'])
  let functions : Table UserFunction := Table.insert ∅ ['f'] ⟨[['n']], body, "f(n) = n * m".toList⟩
  have hshared : Shared.context [] "f(n) = n * m".toList {} = .ok { functions } := by rfl
  have hparsed : (({ functions } : Context).setVariable ['b'] 1.0).Parsed := fun f fn hf =>
    Shared.parsed_context hshared f fn hf
  have heval : ((Expr.substitute subs (.binary .divide a a)).eval (({ functions } : Context).setVariable ['b'] 1.0)).result =
      .error (.undefinedVariable ['m']) := by rfl
  exact ⟨{ functions }, _, hshared, ha, hcall, hundo, hunderstood, heval, hregular _ hparsed _ heval⟩

end Worksheet
