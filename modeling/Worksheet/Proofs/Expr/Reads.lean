import Worksheet.Proofs.Context

/-! What an expression may read, and that its value lasts. A value found in a context is found again when the context
    has learnt more values, unless one of these belongs to a name that stood for a built-in value. -/

namespace Worksheet

namespace Evaluation
variable {α β : Type}

/-- The second evaluation has the value that the first one has, if there is one. -/
def Carries (x y : Evaluation α) : Prop := ∀ v, x.result = .ok v → y.result = .ok v

theorem Carries.refl (x : Evaluation α) : Carries x x := fun _ h => h

theorem Carries.bind {x y : Evaluation α} {f g : α → Evaluation β} (h : Carries x y) (hf : ∀ v, Carries (f v) (g v)) :
    Carries (x >>= f) (y >>= g) := by
  intro v hv
  rw [result_bind] at hv ⊢
  cases hx : x.result with
  | error e =>
    rw [hx] at hv
    cases hv
  | ok w =>
    rw [hx] at hv
    rw [h w hx]
    exact hf w v hv

end Evaluation

/-- An expression may read a name: it stands in the expression, or in the body of a function that is called. -/
inductive Expr.MayRead (functions : Table UserFunction) : Expr → Text → Prop
  | var (x : Text) : MayRead functions (.var x) x
  | unary {op : PrefixOp} {e : Expr} {x : Text} (h : MayRead functions e x) : MayRead functions (.unary op e) x
  | left {op : BinaryOp} {l r : Expr} {x : Text} (h : MayRead functions l x) : MayRead functions (.binary op l r) x
  | right {op : BinaryOp} {l r : Expr} {x : Text} (h : MayRead functions r x) : MayRead functions (.binary op l r) x
  | argument {f : Text} {args : List Expr} {e : Expr} {x : Text} (he : e ∈ args) (h : MayRead functions e x) :
      MayRead functions (.call f args) x
  | body {f : Text} {args : List Expr} {fn : UserFunction} {x : Text}
      (hf : functions.find? (Text.lower f) = some fn) (h : MayRead functions fn.body x) : MayRead functions (.call f args) x

namespace Context
open Evaluation

variable {c c' : Context}

theorem find?_eq_none_iff {name : Text} : c.find? name = none ↔ c.isKnown name = false := by
  rw [isKnown_eq_false_iff]
  unfold find? constantVisible Table.contains
  cases c.values.find? name with
  | some v =>
    cases c.constants.find? name with
    | none => simp
    | some k =>
      dsimp only
      split
      · simp
      · split <;> simp
  | none =>
    cases c.constants.find? name with
    | none => simp
    | some k => simp

theorem result_lookup (c : Context) (name : Text) : (c.lookup name).result = .ok ((c.find? name).map Meaning.value) := by
  unfold lookup
  cases c.find? name with
  | none => rfl
  | some m => cases m <;> rfl

/-- The value of a name: what it means, or else the built-in value that it stands for. -/
theorem result_read (c : Context) (name : Text) : (c.read name).result =
    match c.find? name with
    | some m => .ok m.value
    | none =>
      match Builtin.value? name with
      | some b => .ok (b.apply c.surroundings [])
      | none => .error (.undefinedVariable name) := by
  unfold read lookup
  rw [result_bind]
  cases c.find? name with
  | some m => cases m <;> rfl
  | none => cases Builtin.value? name <;> rfl

/-- No name of a built-in value that `e` may read has got another value. -/
def Spares (c c' : Context) (e : Expr) : Prop := ∀ name, e.MayRead c.functions name → namesBuiltin name = true →
  c.isKnown name = false → c'.isKnown name = false

theorem Learns.carries_read (h : Learns c c') (hbound : BoundKnown c) {name : Text}
    (hspared : namesBuiltin name = true → c.isKnown name = false → c'.isKnown name = false) :
    Carries (c.read name) (c'.read name) := by
  intro v hv
  rw [result_read] at hv ⊢
  cases hm : c.find? name with
  | some m =>
    rw [hm] at hv
    rw [h.find?_of_some hbound hm]
    exact hv
  | none =>
    rw [hm] at hv
    cases hb : Builtin.value? name with
    | none =>
      rw [hb] at hv
      cases hv
    | some b =>
      have hnone := hspared (by simp [namesBuiltin, hb]) (find?_eq_none_iff.mp hm)
      rw [hb] at hv
      rw [find?_eq_none_iff.mpr hnone, h.surroundings]
      exact hv

/-- A name that has been read is read again with its value, unless it stood for a built-in value and has learnt
    another one. -/
theorem Learns.read_iff (h : Learns c c') (hbound : BoundKnown c) {name : Text} {v : Float}
    (hv : (c.read name).result = .ok v) : (c'.read name).result = .ok v ↔
      (c.isKnown name = false → ∀ w, c'.values.find? name = some w → w = v) := by
  rw [← find?_eq_none_iff]
  rw [result_read] at hv
  rw [result_read, h.find?_eq hbound]
  cases hm : c.find? name with
  | some m =>
    rw [hm] at hv
    exact iff_of_true hv (fun hnone => nomatch hnone)
  | none =>
    rw [hm] at hv
    cases hvalue : c'.values.find? name with
    | none =>
      rw [h.surroundings]
      exact iff_of_true hv (fun _ w hw => nomatch hw)
    | some u =>
      constructor
      · rintro hu - w hw
        obtain rfl := Option.some.inj hw
        exact Except.ok.inj hu
      · intro hsame
        exact congrArg Except.ok (hsame rfl u rfl)

/-! ### Inside a call -/

theorem Learns.bind (h : Learns c c') (name : Text) (v : Float) : Learns (c.bind name v) (c'.bind name v) where
  constants := h.constants
  functions := h.functions
  bound := congrArg (NameSet.add · name) h.bound
  shadowed := h.shadowed
  surroundings := h.surroundings
  line := h.line
  depth := h.depth
  values other w hw := by
    show (c'.values.insert name v).find? other = some w
    have hw : (c.values.insert name v).find? other = some w := hw
    rw [Table.find?_insert] at hw ⊢
    split
    · rename_i heq
      rwa [if_pos heq] at hw
    · rename_i hne
      rw [if_neg hne] at hw
      exact h.values other w hw
  hidden other hnone hsome hconstant := by
    have hnone : (c.values.insert name v).find? other = none := hnone
    have hsome : (c'.values.insert name v).contains other = true := hsome
    rw [Table.find?_insert] at hnone
    rw [Table.contains_insert] at hsome
    split at hnone
    · cases hnone
    · rename_i hne
      exact h.hidden other hnone (by simpa [hne] using hsome) hconstant

theorem BoundKnown.bind (h : BoundKnown c) (name : Text) (v : Float) : BoundKnown (c.bind name v) := by
  intro other hother
  have hother : Table.contains (c.bound.add name) other = true := hother
  show (c.values.insert name v).contains other = true
  rw [NameSet.contains_add, Bool.or_eq_true] at hother
  rw [Table.contains_insert, Bool.or_eq_true]
  exact hother.imp_right (h other)

theorem isKnown_bind (c : Context) (name other : Text) (v : Float) :
    (c.bind name v).isKnown other = (decide (name = other) || c.isKnown other) := by
  show ((c.values.insert name v).contains other || c.constantVisible other) = _
  rw [Table.contains_insert, Bool.or_assoc]
  rfl

/-- What two contexts have in common that know the same of the names that no parameter hides. -/
structure Alongside (c c' : Context) (e : Expr) : Prop where
  learns : Learns c c'
  bound : BoundKnown c
  spares : Spares c c' e

theorem Alongside.bind {e : Expr} (h : Alongside c c' e) (name : Text) (v : Float) :
    Alongside (c.bind name v) (c'.bind name v) e where
  learns := h.learns.bind name v
  bound := h.bound.bind name v
  spares other hread hbuiltin hunknown := by
    rw [isKnown_bind, Bool.or_eq_false_iff] at hunknown ⊢
    exact ⟨hunknown.1, h.spares other hread hbuiltin hunknown.2⟩

theorem Alongside.enter {e : Expr} (h : Alongside c c' e) (params : List Text) (args : List Float) :
    Alongside (c.enter params args) (c'.enter params args) e := by
  have hdeeper : Alongside { c with depth := c.depth + 1 } { c' with depth := c'.depth + 1 } e :=
    ⟨{ h.learns with depth := congrArg (· + 1) h.learns.depth }, h.bound, h.spares⟩
  unfold Context.enter
  dsimp only
  generalize { c with depth := c.depth + 1 } = d at hdeeper ⊢
  generalize { c' with depth := c'.depth + 1 } = d' at hdeeper ⊢
  induction params.zip (args ++ List.replicate params.length 0.0) generalizing d d' with
  | nil => exact hdeeper
  | cons p ps ih => exact ih _ _ (hdeeper.bind p.1 p.2)

theorem Alongside.of_mayRead {e e' : Expr} (h : Alongside c c' e)
    (hsub : ∀ name, e'.MayRead c.functions name → e.MayRead c.functions name) : Alongside c c' e' :=
  ⟨h.learns, h.bound, fun name hread => h.spares name (hsub name hread)⟩

end Context

namespace Expr
open Context Evaluation

variable {c c' : Context}

/-- Functions that are run in the two contexts. -/
inductive RunsAlongside (c c' : Context) : Option Runner → Option Runner → Prop
  | none : RunsAlongside c c' none none
  | some {run run' : Runner} (h : ∀ fn args, Alongside c c' fn.body → Carries (run fn args) (run' fn args)) :
      RunsAlongside c c' (some run) (some run')

/-- An operator that evaluates both operands. -/
theorem evalWith_binary (run : Option Runner) (c : Context) {op : BinaryOp} (hand : op ≠ .and) (hor : op ≠ .or)
    (l r : Expr) : evalWith run c (.binary op l r) =
      evalWith run c l >>= fun x => evalWith run c r >>= fun y => op.evaluate x y := by
  cases op <;> first | rfl | exact absurd rfl hand | exact absurd rfl hor

mutual
/-- The value of an expression lasts, given that those of calls do. -/
theorem carries_evalWith {run run' : Option Runner} (hrun : RunsAlongside c c' run run') :
    ∀ e : Expr, Alongside c c' e → Carries (evalWith run c e) (evalWith run' c' e)
  | .number v b, h => .refl _
  | .var x, h => h.learns.carries_read h.bound (h.spares x (.var x))
  | .unary op e, h => by
    have he := carries_evalWith hrun e (h.of_mayRead fun _ => .unary)
    unfold evalWith
    exact he.bind fun _ => .refl _
  | .binary op l r, h => by
    have hl := carries_evalWith hrun l (h.of_mayRead fun _ => .left)
    have hr := carries_evalWith hrun r (h.of_mayRead fun _ => .right)
    by_cases hand : op = .and
    · subst hand
      unfold evalWith
      refine hl.bind fun v => ?_
      split
      · exact hr.bind fun _ => .refl _
      · exact .refl _
    by_cases hor : op = .or
    · subst hor
      unfold evalWith
      refine hl.bind fun v => ?_
      split
      · exact .refl _
      · exact hr.bind fun _ => .refl _
    · rw [evalWith_binary run c hand hor, evalWith_binary run' c' hand hor]
      exact hl.bind fun v => hr.bind fun w => .refl _
  | .call f args, h => by
    have hargs := carries_evalArgs hrun args fun e he => h.of_mayRead fun _ => .argument he
    have hif := carries_evalIf hrun args fun e he => h.of_mayRead fun _ => .argument he
    have hfunction : c'.function? f = c.function? f := congrArg (Table.find? · (Text.lower f)) h.learns.functions
    unfold evalWith
    rw [hfunction]
    cases hf : c.function? f with
    | some fn =>
      have hbody : Alongside c c' fn.body := h.of_mayRead fun _ => .body hf
      refine (Carries.refl _).bind fun _ => ?_
      cases hrun with
      | none => exact .refl _
      | some hcall => exact hargs.bind fun vs => hcall fn vs hbody
    | none =>
      dsimp only
      split
      · exact hif
      · split
        · exact .refl _
        · rw [h.learns.surroundings]
          exact (Carries.refl _).bind fun _ => hargs.bind fun vs => .refl _

theorem carries_evalArgs {run run' : Option Runner} (hrun : RunsAlongside c c' run run') :
    ∀ args : List Expr, (∀ e ∈ args, Alongside c c' e) → Carries (evalArgs run c args) (evalArgs run' c' args)
  | [], _ => .refl _
  | e :: es, h => by
    have he := carries_evalWith hrun e (h e List.mem_cons_self)
    have hes := carries_evalArgs hrun es fun a ha => h a (List.mem_cons_of_mem e ha)
    unfold evalArgs
    exact he.bind fun v => hes.bind fun vs => .refl _

theorem carries_evalIf {run run' : Option Runner} (hrun : RunsAlongside c c' run run') :
    ∀ args : List Expr, (∀ e ∈ args, Alongside c c' e) → Carries (evalIf run c args) (evalIf run' c' args)
  | [cond, x], h => by
    have hcond := carries_evalWith hrun cond (h cond (by simp))
    have hx := carries_evalWith hrun x (h x (by simp))
    unfold evalIf
    refine hcond.bind fun v => ?_
    split
    · exact hx
    · exact .refl _
  | [cond, x, y], h => by
    have hcond := carries_evalWith hrun cond (h cond (by simp))
    have hx := carries_evalWith hrun x (h x (by simp))
    have hy := carries_evalWith hrun y (h y (by simp))
    unfold evalIf
    refine hcond.bind fun v => ?_
    split
    · exact hx
    · exact hy
  | [], _ => .refl _
  | [_], _ => .refl _
  | _ :: _ :: _ :: _ :: _, _ => .refl _
end

theorem runsAlongside_runner (remaining : Nat) (c c' : Context) :
    RunsAlongside c c' (runner remaining c) (runner remaining c') := by
  induction remaining generalizing c c' with
  | zero => exact .none
  | succ remaining ih =>
    refine .some fun fn args hbody => ?_
    have hinner := hbody.enter fn.params args
    exact carries_evalWith (ih _ _) fn.body hinner

/-- The value of an expression lasts while no name of a built-in value that it may read gets another value. -/
theorem result_eval_of_learns {e : Expr} {v : Float} (h : Learns c c') (hbound : BoundKnown c) (hspared : Spares c c' e)
    (hv : (e.eval c).result = .ok v) : (e.eval c').result = .ok v := by
  unfold eval at hv ⊢
  rw [h.depth]
  exact carries_evalWith (runsAlongside_runner _ c c') e ⟨h, hbound, hspared⟩ v hv

end Expr
end Worksheet
