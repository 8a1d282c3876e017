import Worksheet.Proofs.Expr.Reads
import Worksheet.Solve.Definition

/-! Substitution keeps what an expression evaluates to, a value or an error, where every name that is rewritten has the
    value of its definition. The definitions may name each other in a circle. -/

namespace Worksheet

/-- Every name that `subs` rewrites has a value, and its definition has the same. -/
def Context.Honours (c : Context) (subs : Text → Option Expr) : Prop :=
  ∀ x e, subs x = some e → ∃ v, (c.lookup x).result = .ok (some v) ∧ (e.eval c).result = .ok v

namespace Evaluation
variable {α β : Type}

theorem result_bind_congr {x y : Evaluation α} {f g : α → Evaluation β} (h : x.result = y.result)
    (hf : ∀ v, (f v).result = (g v).result) : (x >>= f).result = (y >>= g).result := by
  have hfun : (fun v => (f v).result) = fun v => (g v).result := funext hf
  rw [result_bind, result_bind, h, hfun]

end Evaluation

namespace Context

theorem result_read_of_lookup {c : Context} {x : Text} {v : Float} (h : (c.lookup x).result = .ok (some v)) :
    (c.read x).result = .ok v := by
  unfold read
  rw [Evaluation.result_bind, h]
  rfl

end Context

namespace Expr
open Context Evaluation

variable {c : Context} {subs : Text → Option Expr} {run : Option Runner}

/-- The definitions evaluate to what their names are read as, functions being run by `run`. -/
def ReadsAs (run : Option Runner) (c : Context) (subs : Text → Option Expr) : Prop :=
  ∀ x e, subs x = some e → (evalWith run c e).result = (c.read x).result

@[simp] theorem length_substituteArgs (subs : Text → Option Expr) (args : List Expr) :
    (substituteArgs subs args).length = args.length := by
  induction args with
  | nil => rfl
  | cons e es ih => simp only [substituteArgs, List.length_cons, ih]

mutual
/-- The operands that are left out by `if`, `&&` and `||` are the same ones, since the operands before them have the
    same values. -/
theorem result_evalWith_substitute (h : ReadsAs run c subs) :
    ∀ e : Expr, (evalWith run c (e.substitute subs)).result = (evalWith run c e).result
  | .number _ _ => rfl
  | .var x => by
    unfold substitute
    cases hx : subs x with
    | none => rfl
    | some d => exact h x d hx
  | .unary op e => by
    have he := result_evalWith_substitute h e
    unfold substitute evalWith
    exact result_bind_congr he fun _ => rfl
  | .binary op l r => by
    have hl := result_evalWith_substitute h l
    have hr := result_evalWith_substitute h r
    unfold substitute
    by_cases hand : op = .and
    · subst hand
      unfold evalWith
      refine result_bind_congr hl fun v => ?_
      split
      · exact result_bind_congr hr fun _ => rfl
      · rfl
    by_cases hor : op = .or
    · subst hor
      unfold evalWith
      refine result_bind_congr hl fun v => ?_
      split
      · rfl
      · exact result_bind_congr hr fun _ => rfl
    · rw [evalWith_binary run c hand hor, evalWith_binary run c hand hor]
      exact result_bind_congr hl fun v => result_bind_congr hr fun w => rfl
  | .call f args => by
    have hargs := result_evalArgs_substitute h args
    have hif := result_evalIf_substitute h args
    unfold substitute evalWith
    cases c.function? f with
    | some fn =>
      refine result_bind_congr rfl fun _ => ?_
      cases run with
      | none => rfl
      | some run => exact result_bind_congr hargs fun vs => rfl
    | none =>
      dsimp only
      split
      · exact hif
      · split
        · rfl
        · rw [length_substituteArgs]
          exact result_bind_congr rfl fun _ => result_bind_congr hargs fun vs => rfl

theorem result_evalArgs_substitute (h : ReadsAs run c subs) :
    ∀ args : List Expr, (evalArgs run c (substituteArgs subs args)).result = (evalArgs run c args).result
  | [] => rfl
  | e :: es => by
    have he := result_evalWith_substitute h e
    have hes := result_evalArgs_substitute h es
    unfold substituteArgs evalArgs
    exact result_bind_congr he fun v => result_bind_congr hes fun vs => rfl

theorem result_evalIf_substitute (h : ReadsAs run c subs) :
    ∀ args : List Expr, (evalIf run c (substituteArgs subs args)).result = (evalIf run c args).result
  | [cond, x] => by
    have hcond := result_evalWith_substitute h cond
    have hx := result_evalWith_substitute h x
    simp only [substituteArgs]
    unfold evalIf
    refine result_bind_congr hcond fun v => ?_
    split
    · exact hx
    · rfl
  | [cond, x, y] => by
    have hcond := result_evalWith_substitute h cond
    have hx := result_evalWith_substitute h x
    have hy := result_evalWith_substitute h y
    simp only [substituteArgs]
    unfold evalIf
    refine result_bind_congr hcond fun v => ?_
    split
    · exact hx
    · exact hy
  | [] => rfl
  | [_] => rfl
  | _ :: _ :: _ :: _ :: _ => rfl
end

end Expr

namespace Context
variable {c : Context} {subs : Text → Option Expr}

theorem Honours.readsAs (h : c.Honours subs) : Expr.ReadsAs (Expr.runner (maxCallDepth - c.depth) c) c subs := by
  intro x e hx
  obtain ⟨v, hlookup, heval⟩ := h x e hx
  rw [result_read_of_lookup hlookup]
  exact heval

theorem Honours.result_substitute (h : c.Honours subs) (e : Expr) :
    ((e.substitute subs).eval c).result = (e.eval c).result :=
  Expr.result_evalWith_substitute h.readsAs e

/-- Any number of rounds keeps the result; no round has to be the last that changes something. -/
theorem Honours.result_repeat (h : c.Honours subs) (n : Nat) (e : Expr) :
    ((Nat.repeat (Expr.substitute subs) n e).eval c).result = (e.eval c).result := by
  induction n with
  | zero => rfl
  | succ n ih => exact (h.result_substitute (Nat.repeat (Expr.substitute subs) n e)).trans ih

end Context

/-! ### The names of an expression -/

namespace Expr
variable {subs subs' : Text → Option Expr}

mutual
/-- Only what is put in place of the names of an expression matters. -/
theorem substitute_congr : ∀ e : Expr, (∀ x ∈ e.names, subs x = subs' x) → e.substitute subs = e.substitute subs'
  | .number _ _, _ => rfl
  | .var x, h => by simp only [substitute, h x (List.mem_singleton_self x)]
  | .unary op e, h => congrArg (unary op) (substitute_congr e h)
  | .binary op l r, h => by
    have hl := substitute_congr l fun x hx => h x (List.mem_append_left _ hx)
    have hr := substitute_congr r fun x hx => h x (List.mem_append_right _ hx)
    simp only [substitute, hl, hr]
  | .call f args, h => congrArg (call f) (substituteArgs_congr args h)

theorem substituteArgs_congr : ∀ args : List Expr, (∀ x ∈ argNames args, subs x = subs' x) →
    substituteArgs subs args = substituteArgs subs' args
  | [], _ => rfl
  | e :: es, h => by
    have he := substitute_congr e fun x hx => h x (List.mem_append_left _ hx)
    have hes := substituteArgs_congr es fun x hx => h x (List.mem_append_right _ hx)
    simp only [substituteArgs, he, hes]
end

/-- The name `y` stands where `x` has stood: it is `x` itself, or a name of what was put in its place. -/
def StandsFor (subs : Text → Option Expr) (x y : Text) : Prop := y ∈ (((subs x).getD (.var x)).names)

mutual
theorem mem_names_substitute {y : Text} : ∀ e : Expr, y ∈ (e.substitute subs).names ↔ ∃ x ∈ e.names, StandsFor subs x y
  | .number _ _ => by simp [substitute, names]
  | .var x => by simp [substitute, names, StandsFor]
  | .unary op e => by simpa only [substitute, names] using mem_names_substitute e
  | .binary op l r => by
    simp only [substitute, names, List.mem_append, mem_names_substitute l, mem_names_substitute r, or_and_right, exists_or]
  | .call f args => by simpa only [substitute, names] using mem_argNames_substituteArgs args

theorem mem_argNames_substituteArgs {y : Text} :
    ∀ args : List Expr, y ∈ argNames (substituteArgs subs args) ↔ ∃ x ∈ argNames args, StandsFor subs x y
  | [] => by simp [substituteArgs, argNames]
  | e :: es => by
    simp only [substituteArgs, argNames, List.mem_append, mem_names_substitute e, mem_argNames_substituteArgs es,
      or_and_right, exists_or]
end

end Expr

/-- It is enough that the names of the expression have the values of their definitions. -/
theorem Context.result_substitute_of_names {c : Context} {subs : Text → Option Expr} {e : Expr}
    (h : ∀ x ∈ e.names, ∀ d, subs x = some d → ∃ v, (c.lookup x).result = .ok (some v) ∧ (d.eval c).result = .ok v) :
    ((e.substitute subs).eval c).result = (e.eval c).result := by
  have hhonours : c.Honours fun x => if x ∈ e.names then subs x else none := by
    intro x d hd
    obtain ⟨hx, hd⟩ := Option.ite_none_right_eq_some.mp hd
    exact h x hx d hd
  rw [Expr.substitute_congr e fun x hx => (if_pos hx).symm]
  exact hhonours.result_substitute e

/-- Putting definitions in place of names, once or in the rounds of an elimination, keeps the value or the error of
    every expression, if the names have the values of their definitions. -/
theorem Expr.result_eval_of_honours (c : Context) :
    (∀ subs, c.Honours subs → ∀ e : Expr, ((e.substitute subs).eval c).result = (e.eval c).result) ∧
    (∀ (m : Eliminations) (line : Nat), c.Honours (m.elsewhere line) →
      ∀ e : Expr, ((m.eliminate line e).eval c).result = (e.eval c).result) :=
  ⟨fun _ h => h.result_substitute, fun _ _ h => h.result_repeat Eliminations.rounds⟩

/-- Three names that are defined by each other, in a call within a condition. The branch that reads an unknown name is
    not evaluated. -/
theorem Expr.result_eval_of_honours_circle :
    let m : Eliminations :=
      ((Table.insert ∅ ['x'] ⟨.var ['y'], 1⟩).insert ['y'] ⟨.var ['z'], 2⟩).insert ['z'] ⟨.var ['x'], 3⟩
    let c : Context :=
      { values := ((Table.insert ∅ ['x'] 2.0).insert ['y'] 2.0).insert ['z'] 2.0
        functions := Table.insert ∅ ['f'] ⟨[['t']], .binary .multiply (.var ['t']) (.var ['x']), []⟩ }
    let e : Expr := .call ['i', 'f'] [.binary .and (.var ['x']) (.var ['y']), .call ['f'] [.var ['z']], .var ['w']]
    c.Honours (m.elsewhere 4) ∧ (e.eval c).result = .ok 4.0 ∧
      ((e.substitute (m.elsewhere 4)).eval c).result = .ok 4.0 ∧ ((m.eliminate 4 e).eval c).result = .ok 4.0 := by
  intro m c e
  have hhonours : c.Honours (m.elsewhere 4) := by
    intro name d hd
    obtain ⟨el, hfind, rfl⟩ := Option.map_eq_some_iff.mp hd
    have hfind := (Option.filter_eq_some_iff.mp hfind).1
    simp only [m, Table.find?_insert] at hfind
    split_ifs at hfind with hz hy hx <;> cases hfind
    · exact hz ▸ ⟨2.0, rfl, rfl⟩
    · exact hy ▸ ⟨2.0, rfl, rfl⟩
    · exact hx ▸ ⟨2.0, rfl, rfl⟩
  have heval : (e.eval c).result = .ok 4.0 := by decide +kernel
  have hboth := Expr.result_eval_of_honours c
  exact ⟨hhonours, heval, (hboth.1 _ hhonours e).trans heval, (hboth.2 m 4 hhonours e).trans heval⟩

end Worksheet
