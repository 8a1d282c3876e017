import Worksheet.Proofs.Expr.Shadowing
import Worksheet.Proofs.Solve.Evaluations

/-! What a solve lists as used has been read. An evaluation records a constant only where it reads the name and finds the
    constant under it, in itself or inside of a call; and a solve lists what its evaluations record. -/

namespace Worksheet

/-- The evaluation records constants of some names only. -/
def Evaluation.Records {α : Type} (x : Evaluation α) (P : Text → Prop) : Prop :=
  ∀ g, x.used.lists (.constant g) = true → P g

namespace Evaluation
variable {α β : Type} {P Q : Text → Prop} {x : Evaluation α}

theorem Records.mono (h : x.Records P) (hPQ : ∀ g, P g → Q g) : x.Records Q := fun g hg => hPQ g (h g hg)

theorem records_of_used_eq (h : x.used.constants = ∅) : x.Records P := by
  intro g hg
  have hg : x.used.constants.contains g = true := hg
  rw [h] at hg
  cases hg

theorem records_pure (v : α) : (pure v : Evaluation α).Records P := records_of_used_eq rfl

theorem records_fail (e : EvalError) : (fail e : Evaluation α).Records P := records_of_used_eq rfl

theorem records_ofOption (e : EvalError) (o : Option α) : (ofOption e o).Records P := by
  cases o <;> exact records_of_used_eq rfl

theorem Records.bind {f : α → Evaluation β} (h : x.Records P) (hf : ∀ v, (f v).Records P) : (x >>= f).Records P := by
  intro g hg
  rw [used_andThen] at hg
  cases hx : x.result with
  | error e =>
    rw [hx] at hg
    exact h g hg
  | ok v =>
    rw [hx] at hg
    dsimp only at hg
    rw [Usage.lists_union, Bool.or_eq_true] at hg
    exact hg.elim (h g) (hf v g)

end Evaluation

namespace Expr
open Evaluation

variable {c : Context}

/-- Evaluating `e` may come to read `g` where it is a constant. -/
def ReadsConstant (c : Context) (e : Expr) (g : Text) : Prop :=
  ∃ c', e.ReadsIn c c' g ∧ ∃ v, c'.find? g = some (.ofConstant v)

/-- What is recorded for a part belongs to the whole. -/
theorem records_of_part {α : Type} {x : Evaluation α} {e e' : Expr} (h : x.Records (ReadsConstant c e))
    (hpart : ∀ {c' : Context} {g : Text}, e.ReadsIn c c' g → e'.ReadsIn c c' g) : x.Records (ReadsConstant c e') :=
  h.mono fun _ ⟨c', hreads, hv⟩ => ⟨c', hpart hreads, hv⟩

/-- One of the expressions may come to read `g` where it is a constant. -/
def AnyReadsConstant (c : Context) (es : List Expr) (g : Text) : Prop := ∃ e ∈ es, ReadsConstant c e g

theorem records_of_mem {α : Type} {x : Evaluation α} {e : Expr} {es : List Expr} (h : x.Records (ReadsConstant c e))
    (he : e ∈ es) : x.Records (AnyReadsConstant c es) := h.mono fun _ hreads => ⟨e, he, hreads⟩

/-- A call records constants that its body reads. -/
def RunsRecorded (c : Context) (run : Option Runner) : Prop :=
  ∀ r, run = some r → ∀ fn vs, (r fn vs).Records (ReadsConstant (c.enter fn.params vs) fn.body)

theorem records_read (c : Context) (x : Text) : (c.read x).Records (ReadsConstant c (.var x)) := by
  have hlookup : (c.lookup x).Records (ReadsConstant c (.var x)) := by
    unfold Context.lookup
    cases hm : c.find? x with
    | none => exact records_pure _
    | some m =>
      cases m with
      | ofVariable v => exact records_pure _
      | ofConstant v =>
        refine Records.bind (fun g hg => ?_) fun _ => records_pure _
        have hg : Table.contains (NameSet.add ∅ x) g = true := hg
        rw [NameSet.contains_add, Bool.or_eq_true, decide_eq_true_eq] at hg
        obtain rfl | hg := hg
        · exact ⟨c, .var c x, v, hm⟩
        · cases hg
  refine hlookup.bind fun v => ?_
  cases v with
  | some v => exact records_pure v
  | none =>
    dsimp only
    cases Builtin.value? x with
    | some b => exact records_pure _
    | none => exact records_fail _

theorem records_checkArguments {P : Text → Prop} (b : Builtin) (f : Text) (count : Nat) :
    (Context.checkArguments b f count).Records P := by
  unfold Context.checkArguments
  split
  · exact records_fail _
  · split
    · split
      · exact records_fail _
      · exact records_pure _
    · exact records_pure _

theorem records_evaluate {P : Text → Prop} (op : BinaryOp) (l r : Float) : (op.evaluate l r).Records P := by
  unfold BinaryOp.evaluate
  split
  · exact records_fail _
  · exact records_ofOption _ _

mutual
theorem records_evalWith {run : Option Runner} (hrun : RunsRecorded c run) :
    ∀ e : Expr, (evalWith run c e).Records (ReadsConstant c e)
  | .number v b => by
    unfold evalWith
    exact records_pure v
  | .var x => by
    unfold evalWith
    exact records_read c x
  | .unary op e => by
    have he : (evalWith run c e).Records (ReadsConstant c (.unary op e)) :=
      records_of_part (records_evalWith hrun e) .unary
    unfold evalWith
    exact he.bind fun v => records_ofOption _ _
  | .binary op l r => by
    have hl : (evalWith run c l).Records (ReadsConstant c (.binary op l r)) :=
      records_of_part (records_evalWith hrun l) .left
    have hr : (evalWith run c r).Records (ReadsConstant c (.binary op l r)) :=
      records_of_part (records_evalWith hrun r) .right
    by_cases hand : op = .and
    · subst hand
      unfold evalWith
      refine hl.bind fun v => ?_
      split
      · exact hr.bind fun _ => records_pure _
      · exact records_pure _
    by_cases hor : op = .or
    · subst hor
      unfold evalWith
      refine hl.bind fun v => ?_
      split
      · exact records_pure _
      · exact hr.bind fun _ => records_pure _
    · rw [evalWith_binary run c hand hor]
      exact hl.bind fun x => hr.bind fun y => records_evaluate op x y
  | .call f args => by
    have hargument (g : Text) : AnyReadsConstant c args g → ReadsConstant c (.call f args) g :=
      fun ⟨e, he, c', h, hv⟩ => ⟨c', .argument he h, hv⟩
    have hargs := (records_evalArgs hrun args).mono hargument
    have hif := (records_evalIf hrun args).mono hargument
    unfold evalWith
    cases hf : c.function? f with
    | some fn =>
      refine Records.bind (records_of_used_eq rfl) fun _ => ?_
      cases hr : run with
      | none => exact records_fail _
      | some r =>
        refine (hr ▸ hargs).bind fun vs => ?_
        exact (hrun r hr fn vs).mono fun g ⟨c', h, hv⟩ => ⟨c', .body hf h, hv⟩
    | none =>
      dsimp only
      split
      · exact hif
      · split
        · exact records_fail _
        · exact (records_checkArguments _ _ _).bind fun _ => hargs.bind fun vs => records_pure _

theorem records_evalArgs {run : Option Runner} (hrun : RunsRecorded c run) :
    ∀ args : List Expr, (evalArgs run c args).Records (AnyReadsConstant c args)
  | [] => by
    unfold evalArgs
    exact records_pure _
  | e :: es => by
    have he : (evalWith run c e).Records (AnyReadsConstant c (e :: es)) :=
      records_of_mem (records_evalWith hrun e) List.mem_cons_self
    have hes : (evalArgs run c es).Records (AnyReadsConstant c (e :: es)) :=
      (records_evalArgs hrun es).mono fun g ⟨a, ha, h⟩ => ⟨a, List.mem_cons_of_mem e ha, h⟩
    unfold evalArgs
    exact he.bind fun v => hes.bind fun vs => records_pure _

theorem records_evalIf {run : Option Runner} (hrun : RunsRecorded c run) :
    ∀ args : List Expr, (evalIf run c args).Records (AnyReadsConstant c args)
  | [cond, x] => by
    have hcond : (evalWith run c cond).Records (AnyReadsConstant c [cond, x]) :=
      records_of_mem (records_evalWith hrun cond) (by simp)
    have hx : (evalWith run c x).Records (AnyReadsConstant c [cond, x]) :=
      records_of_mem (records_evalWith hrun x) (by simp)
    unfold evalIf
    refine hcond.bind fun v => ?_
    split
    · exact hx
    · exact records_pure _
  | [cond, x, y] => by
    have hcond : (evalWith run c cond).Records (AnyReadsConstant c [cond, x, y]) :=
      records_of_mem (records_evalWith hrun cond) (by simp)
    have hx : (evalWith run c x).Records (AnyReadsConstant c [cond, x, y]) :=
      records_of_mem (records_evalWith hrun x) (by simp)
    have hy : (evalWith run c y).Records (AnyReadsConstant c [cond, x, y]) :=
      records_of_mem (records_evalWith hrun y) (by simp)
    unfold evalIf
    refine hcond.bind fun v => ?_
    split
    · exact hx
    · exact hy
  | [] | [_] | _ :: _ :: _ :: _ :: _ => by
    unfold evalIf
    exact records_fail _
end

theorem runsRecorded_runner (remaining : Nat) (c : Context) : RunsRecorded c (runner remaining c) := by
  induction remaining generalizing c with
  | zero => exact fun r hr => nomatch hr
  | succ remaining ih =>
    intro r hr fn vs
    obtain rfl := Option.some.inj hr
    exact records_evalWith (ih (c.enter fn.params vs)) fn.body

/-- An evaluation records a constant only where it reads it. -/
theorem records_eval (c : Context) (e : Expr) : (e.eval c).Records (ReadsConstant c e) :=
  records_evalWith (runsRecorded_runner _ c) e

end Expr

namespace SolveState

/-- A constant that a solve lists as used is read by one of its evaluations. -/
theorem exists_reads_of_lists_run {s : SolveState} {g : Text} (hnew : s.used.lists (.constant g) = false)
    (h : s.run.used.lists (.constant g) = true) : ∃ p ∈ s.trace, p.expr.ReadsConstant p.context g := by
  rw [lists_used_run, hnew, Bool.false_or, List.any_eq_true] at h
  obtain ⟨p, hp, hused⟩ := h
  exact ⟨p, hp, p.expr.records_eval p.context g hused⟩

end SolveState
end Worksheet
