import Worksheet.Proofs.Expr.Reads

/-! Unknown names and names that an evaluation misses. Which names of an expression are unknown is read off its tree;
    an evaluation looks a name up only when it comes to it. Where no user's function is called, every name that an
    evaluation misses is an unknown one, and none is missed once all of these are bound. -/

namespace Worksheet

namespace Expr

mutual
/-- The functions that an expression calls. -/
def callees : Expr → List Text
  | number _ _ => []
  | .var _ => []
  | unary _ e => callees e
  | binary _ l r => callees l ++ callees r
  | call f args => f :: argCallees args

def argCallees : List Expr → List Text
  | [] => []
  | e :: es => callees e ++ argCallees es
end

/-- An expression that calls no user's function. -/
def CallsBuiltin (c : Context) (e : Expr) : Prop := ∀ f ∈ e.callees, c.function? f = none

instance (c : Context) (e : Expr) : Decidable (e.CallsBuiltin c) :=
  inferInstanceAs (Decidable (∀ f ∈ e.callees, (c.functions.find? (Text.lower f)) = none))

end Expr

namespace Evaluation
variable {α β : Type} {P : Text → Prop}

/-- A name that the evaluation finds undefined is one of those that `P` admits. -/
def Misses (P : Text → Prop) (x : Evaluation α) : Prop := ∀ name, x.result = .error (.undefinedVariable name) → P name

theorem misses_pure (v : α) : Misses P (pure v) := fun _ h => nomatch h

theorem misses_fail {e : EvalError} (h : ∀ name, e ≠ .undefinedVariable name) : Misses P (fail e : Evaluation α) :=
  fun name hfail => absurd (Except.error.inj hfail) (h name)

theorem misses_ofOption (symbol : Text) (v : Option α) : Misses P (ofOption (.unknownOperator symbol) v) := by
  cases v with
  | none => exact misses_fail fun _ h => nomatch h
  | some v => exact misses_pure v

theorem Misses.bind {x : Evaluation α} {f : α → Evaluation β} (h : Misses P x) (hf : ∀ v, Misses P (f v)) :
    Misses P (x >>= f) := by
  intro name hname
  rw [result_bind] at hname
  cases hx : x.result with
  | error e =>
    rw [hx] at hname
    obtain rfl := Except.error.inj hname
    exact h name hx
  | ok v =>
    rw [hx] at hname
    exact hf v name hname

end Evaluation

namespace Context
open Evaluation
variable {c : Context} {P : Text → Prop}

/-- A name is missed only if it is unknown. -/
theorem misses_read {x : Text} (h : c.isUnknown x = true → P x) : Misses P (c.read x) := by
  intro name hname
  rw [result_read] at hname
  cases hmeaning : c.find? x with
  | some m =>
    rw [hmeaning] at hname
    cases hname
  | none =>
    rw [hmeaning] at hname
    cases hbuiltin : Builtin.value? x with
    | some b =>
      rw [hbuiltin] at hname
      cases hname
    | none =>
      rw [hbuiltin] at hname
      obtain rfl := EvalError.undefinedVariable.inj (Except.error.inj hname)
      exact h (isUnknown_iff.mpr ⟨find?_eq_none_iff.mp hmeaning, by rw [namesBuiltin, hbuiltin]; rfl⟩)

theorem misses_checkArguments (b : Builtin) (name : Text) (count : Nat) : Misses P (checkArguments b name count) := by
  unfold checkArguments
  split
  · exact misses_fail fun _ h => nomatch h
  · split
    · split
      · exact misses_fail fun _ h => nomatch h
      · exact misses_pure ()
    · exact misses_pure ()

end Context

theorem BinaryOp.misses_evaluate {P : Text → Prop} (op : BinaryOp) (l r : Float) :
    Evaluation.Misses P (op.evaluate l r) := by
  unfold evaluate
  split
  · exact Evaluation.misses_fail fun _ h => nomatch h
  · exact Evaluation.misses_ofOption _ _

namespace Expr
open Context Evaluation
variable {c : Context} {run : Option Runner} {P : Text → Prop}

theorem mem_argNames {args : List Expr} {name : Text} : name ∈ argNames args ↔ ∃ e ∈ args, name ∈ e.names := by
  induction args with
  | nil => simp [argNames]
  | cons e es ih => simp [argNames, ih]

theorem mem_argCallees {args : List Expr} {f : Text} : f ∈ argCallees args ↔ ∃ e ∈ args, f ∈ e.callees := by
  induction args with
  | nil => simp [argCallees]
  | cons e es ih => simp [argCallees, ih]

/-- The expression calls no user's function, and `P` admits its unknown names. -/
structure Covered (c : Context) (P : Text → Prop) (e : Expr) : Prop where
  calls : e.CallsBuiltin c
  names : ∀ x ∈ e.names, c.isUnknown x = true → P x

theorem Covered.operand {op : PrefixOp} {e : Expr} (h : Covered c P (.unary op e)) : Covered c P e := ⟨h.calls, h.names⟩

theorem Covered.left {op : BinaryOp} {l r : Expr} (h : Covered c P (.binary op l r)) : Covered c P l :=
  ⟨fun f hf => h.calls f (List.mem_append_left _ hf), fun x hx => h.names x (List.mem_append_left _ hx)⟩

theorem Covered.right {op : BinaryOp} {l r : Expr} (h : Covered c P (.binary op l r)) : Covered c P r :=
  ⟨fun f hf => h.calls f (List.mem_append_right _ hf), fun x hx => h.names x (List.mem_append_right _ hx)⟩

theorem Covered.argument {f : Text} {args : List Expr} (h : Covered c P (.call f args)) : ∀ e ∈ args, Covered c P e :=
  fun e he => ⟨fun g hg => h.calls g (List.mem_cons_of_mem f (mem_argCallees.mpr ⟨e, he, hg⟩)),
    fun x hx => h.names x (mem_argNames.mpr ⟨e, he, hx⟩)⟩

mutual
/-- An evaluation misses only unknown names, one case for every kind of expression. What `if`, `&&` and `||` leave out
    is covered all the same. -/
theorem misses_evalWith : ∀ e : Expr, Covered c P e → Misses P (evalWith run c e)
  | .number v b, _ => misses_pure v
  | .var x, h => misses_read (h.names x (List.mem_singleton_self x))
  | .unary op e, h => by
    have he := misses_evalWith e h.operand
    unfold evalWith
    exact he.bind fun v => misses_ofOption _ _
  | .binary op l r, h => by
    have hl := misses_evalWith l h.left
    have hr := misses_evalWith r h.right
    by_cases hand : op = .and
    · subst hand
      unfold evalWith
      refine hl.bind fun v => ?_
      split
      · exact hr.bind fun w => misses_pure _
      · exact misses_pure _
    by_cases hor : op = .or
    · subst hor
      unfold evalWith
      refine hl.bind fun v => ?_
      split
      · exact misses_pure _
      · exact hr.bind fun w => misses_pure _
    · rw [evalWith_binary run c hand hor]
      exact hl.bind fun v => hr.bind fun w => op.misses_evaluate v w
  | .call f args, h => by
    have hargs := misses_evalArgs args h.argument
    have hif := misses_evalIf args h.argument
    unfold evalWith
    rw [h.calls f List.mem_cons_self]
    dsimp only
    split
    · exact hif
    · split
      · exact misses_fail fun _ h => nomatch h
      · exact (misses_checkArguments _ f args.length).bind fun _ => hargs.bind fun vs => misses_pure _

theorem misses_evalArgs : ∀ args : List Expr, (∀ e ∈ args, Covered c P e) → Misses P (evalArgs run c args)
  | [], _ => misses_pure []
  | e :: es, h => by
    have he := misses_evalWith e (h e List.mem_cons_self)
    have hes := misses_evalArgs es fun a ha => h a (List.mem_cons_of_mem e ha)
    unfold evalArgs
    exact he.bind fun v => hes.bind fun vs => misses_pure _

theorem misses_evalIf : ∀ args : List Expr, (∀ e ∈ args, Covered c P e) → Misses P (evalIf run c args)
  | [cond, x], h => by
    have hcond := misses_evalWith cond (h cond (by simp))
    have hx := misses_evalWith x (h x (by simp))
    unfold evalIf
    refine hcond.bind fun v => ?_
    split
    · exact hx
    · exact misses_pure _
  | [cond, x, y], h => by
    have hcond := misses_evalWith cond (h cond (by simp))
    have hx := misses_evalWith x (h x (by simp))
    have hy := misses_evalWith y (h y (by simp))
    unfold evalIf
    refine hcond.bind fun v => ?_
    split
    · exact hx
    · exact hy
  | [], _ => misses_fail fun _ h => nomatch h
  | [_], _ => misses_fail fun _ h => nomatch h
  | _ :: _ :: _ :: _ :: _, _ => misses_fail fun _ h => nomatch h
end

end Expr

/-! ### Binding the unknown names -/

namespace Context

/-- Values for some names, bound one after the other. -/
def bindAll (c : Context) (values : List (Text × Float)) : Context := values.foldl (fun c p => c.bind p.1 p.2) c

section BindAll
variable (c : Context) (values : List (Text × Float))

theorem functions_bindAll : (c.bindAll values).functions = c.functions := by
  induction values generalizing c with
  | nil => rfl
  | cons p values ih => exact ih (c.bind p.1 p.2)

theorem isUnknown_bindAll (name : Text) : (c.bindAll values).isUnknown name =
    (!(values.map Prod.fst).contains name && c.isUnknown name) := by
  induction values generalizing c with
  | nil => rfl
  | cons p values ih =>
    show ((c.bind p.1 p.2).bindAll values).isUnknown name = _
    rw [ih, isUnknown, isUnknown, isKnown_bind, List.map_cons, List.contains_cons]
    by_cases hname : name = p.1
    · simp [hname]
    · simp [beq_false_of_ne hname, Ne.symm hname]

end BindAll
end Context

/-- A name that the evaluation of an expression without calls of user's functions finds undefined is one of its unknown
    names. Without unknown names none is found undefined, nor when every unknown name has been bound. -/
theorem Expr.undefined_mem_unknowns (c : Context) (e : Expr) (h : e.CallsBuiltin c) :
    (∀ x, (e.eval c).result = .error (.undefinedVariable x) → x ∈ (c.unknowns [e]).names) ∧
    ((c.unknowns [e]).names = [] → ∀ x, (e.eval c).result ≠ .error (.undefinedVariable x)) ∧
    ∀ values : List (Text × Float), (c.unknowns [e]).names ⊆ values.map Prod.fst →
      ∀ x, (e.eval (c.bindAll values)).result ≠ .error (.undefinedVariable x) := by
  have hmem (x : Text) : x ∈ (c.unknowns [e]).names ↔ x ∈ e.names ∧ c.isUnknown x = true := by
    rw [Context.mem_unknowns]
    simp
  have hundefined : Evaluation.Misses (· ∈ (c.unknowns [e]).names) (e.eval c) :=
    misses_evalWith e ⟨h, fun x hx hunknown => (hmem x).mpr ⟨hx, hunknown⟩⟩
  refine ⟨hundefined, fun hnone x hx => ?_, fun values hvalues x hx => ?_⟩
  · have hunknown := hundefined x hx
    rw [hnone] at hunknown
    cases hunknown
  · have hcalls : e.CallsBuiltin (c.bindAll values) := fun f hf => by
      rw [Context.function?, Context.functions_bindAll]
      exact h f hf
    have hmissed : Evaluation.Misses (fun _ => False) (e.eval (c.bindAll values)) := by
      refine misses_evalWith e ⟨hcalls, fun y hy hunknown => ?_⟩
      rw [Context.isUnknown_bindAll, Bool.and_eq_true] at hunknown
      have hbound := hvalues ((hmem y).mpr ⟨hy, hunknown.2⟩)
      simp [hbound] at hunknown
    exact hmissed x hx

/-- In the sum of a known name and a function of an unknown one, the latter is missed until it is bound. -/
theorem Expr.undefined_mem_unknowns_sum :
    let c := ({} : Context).setVariable ['a'] 1.0
    let e := Expr.binary .add (.var ['a']) (.call "sin".toList [.var ['b']])
    e.CallsBuiltin c ∧ (e.eval c).result = .error (.undefinedVariable ['b']) ∧ ['b'] ∈ (c.unknowns [e]).names ∧
      ∀ x, (e.eval (c.bindAll [(['b'], 2.0)])).result ≠ .error (.undefinedVariable x) := by
  intro c e
  have hcalls : e.CallsBuiltin c := by decide
  have hmissed : (e.eval c).result = .error (.undefinedVariable ['b']) := rfl
  obtain ⟨hunknown, -, hbound⟩ := Expr.undefined_mem_unknowns c e hcalls
  exact ⟨hcalls, hmissed, hunknown _ hmissed, hbound _ (by decide)⟩

end Worksheet
