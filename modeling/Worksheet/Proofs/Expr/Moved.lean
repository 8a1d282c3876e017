import Worksheet.Expr.Eval

/-! A document that stands some lines further down. The lines on which constants are hidden move with it, and so does
    the line from which a context is looked at; names keep their meaning, and expressions keep their values. -/

namespace Worksheet

/-! ### Tables with other values -/

namespace Table
variable {α β : Type} (f : α → β) (t : Table α)

theorem get?_map (name : Text) (l : List (Text × α)) :
    get? name (l.map fun x => (x.1, f x.2)) = (get? name l).map f := by
  induction l with
  | nil => rfl
  | cons x l ih =>
    rw [List.map_cons, get?, get?, ih]
    split <;> rfl

theorem map_put (name : Text) (value : α) (l : List (Text × α)) :
    (put name value l).map (fun x => (x.1, f x.2)) = put name (f value) (l.map fun x => (x.1, f x.2)) := by
  induction l with
  | nil => rfl
  | cons x l ih =>
    rw [List.map_cons, put, put, ← ih]
    split
    · rfl
    · split <;> rfl

theorem find?_mapValues (name : Text) : (t.mapValues f).find? name = (t.find? name).map f := get?_map f name t.entries

theorem contains_mapValues (name : Text) : (t.mapValues f).contains name = t.contains name := by
  unfold contains
  rw [find?_mapValues, Option.isSome_map]

theorem mapValues_insert (name : Text) (value : α) :
    (t.insert name value).mapValues f = (t.mapValues f).insert name (f value) := by
  unfold insert mapValues
  rw [Table.mk.injEq]
  exact map_put f name value t.entries

theorem mapValues_erase (name : Text) : (t.erase name).mapValues f = (t.mapValues f).erase name := by
  unfold erase mapValues
  rw [Table.mk.injEq, List.filter_map]
  rfl

end Table

namespace Context
variable (n : Nat) (c : Context) (name : Text)

/-- The context of a document that stands `n` lines further down. -/
def moved : Context := { c with shadowed := c.shadowed.mapValues (· + (n : Int)) }

/-- The same context as it is seen from the present line, which has moved with the document. -/
def down : Context := (c.moved n).setLine (c.line + n)

/-! ### Names -/

/-- A place is before the present line if it is when both are `n` lines further down. -/
theorem all_line_down : (((c.down n).shadowed.find? name).all fun k => decide ((c.down n).line < k)) =
    (c.shadowed.find? name).all fun k => decide (c.line < k) := by
  show ((c.shadowed.mapValues (· + (n : Int))).find? name).all (fun k => decide (c.line + n < k)) = _
  rw [Table.find?_mapValues]
  cases c.shadowed.find? name with
  | none => rfl
  | some k => exact decide_eq_decide.mpr (Int.add_lt_add_iff_right (n : Int))

theorem constantVisible_down : (c.down n).constantVisible name = c.constantVisible name := by
  unfold constantVisible
  rw [all_line_down]
  rfl

theorem isKnown_down : (c.down n).isKnown name = c.isKnown name := by
  unfold isKnown
  rw [constantVisible_down]
  rfl

theorem isUnknown_down : (c.down n).isUnknown name = c.isUnknown name := by
  unfold isUnknown
  rw [isKnown_down]

theorem unknowns_down (es : List Expr) : (c.down n).unknowns es = c.unknowns es := by
  have hunknown : (c.down n).isUnknown = c.isUnknown := funext (isUnknown_down n c)
  unfold unknowns
  rw [hunknown]

theorem find?_down : (c.down n).find? name = c.find? name := by
  have hshadowed : (c.down n).shadowed.contains name = c.shadowed.contains name := Table.contains_mapValues _ _ _
  unfold find?
  rw [hshadowed, constantVisible_down]
  rfl

theorem lookup_down : (c.down n).lookup name = c.lookup name := by
  unfold lookup
  rw [find?_down]

theorem read_down : (c.down n).read name = c.read name := by
  unfold read
  rw [lookup_down]
  rfl

/-! ### Changes -/

theorem shadow_moved (line : Int) : (c.moved n).shadow name (line + n) = (c.shadow name line).moved n := by
  have hlater : ((c.moved n).shadowed.find? name).all (fun k => decide (line + n < k)) =
      (c.shadowed.find? name).all fun k => decide (line < k) := all_line_down n (c.setLine line) name
  have hconstant : (c.moved n).constants.contains name = c.constants.contains name := rfl
  unfold shadow
  rw [hlater, hconstant]
  split
  · unfold moved
    rw [Table.mapValues_insert]
  · rfl

theorem bind_down (v : Float) : (c.down n).bind name v = (c.bind name v).down n := rfl

theorem enter_down (params : List Text) (args : List Float) :
    (c.down n).enter params args = (c.enter params args).down n := by
  have hbind (ps : List (Text × Float)) (d : Context) :
      ps.foldl (fun c p => c.bind p.1 p.2) (d.down n) = (ps.foldl (fun c p => c.bind p.1 p.2) d).down n := by
    induction ps generalizing d with
    | nil => rfl
    | cons p ps ih => exact ih (d.bind p.1 p.2)
  exact hbind _ { c with depth := c.depth + 1 }

end Context

/-! ### Values of expressions -/

namespace Expr
open Context

variable (n : Nat) (c : Context)

mutual
theorem evalWith_down (run : Option Runner) : ∀ e : Expr, evalWith run (c.down n) e = evalWith run c e
  | .number v b => rfl
  | .var x => read_down n c x
  | .unary op e => by
    unfold evalWith
    rw [evalWith_down run e]
  | .binary op l r => by
    have hl := evalWith_down run l
    have hr := evalWith_down run r
    cases op <;> (unfold evalWith; rw [hl, hr])
  | .call f args => by
    have hargs (run : Option Runner) := evalArgs_down run args
    have hif := evalIf_down run args
    have hfunction : (c.down n).function? f = c.function? f := rfl
    unfold evalWith
    rw [hfunction, hif]
    simp only [hargs]
    rfl

theorem evalArgs_down (run : Option Runner) : ∀ args : List Expr, evalArgs run (c.down n) args = evalArgs run c args
  | [] => rfl
  | e :: es => by
    unfold evalArgs
    rw [evalWith_down run e, evalArgs_down run es]

theorem evalIf_down (run : Option Runner) : ∀ args : List Expr, evalIf run (c.down n) args = evalIf run c args
  | [cond, x] => by
    unfold evalIf
    rw [evalWith_down run cond, evalWith_down run x]
  | [cond, x, y] => by
    unfold evalIf
    rw [evalWith_down run cond, evalWith_down run x, evalWith_down run y]
  | [] => rfl
  | [_] => rfl
  | _ :: _ :: _ :: _ :: _ => rfl
end

theorem runner_down (remaining : Nat) : runner remaining (c.down n) = runner remaining c := by
  induction remaining generalizing c with
  | zero => rfl
  | succ remaining ih =>
    unfold runner
    dsimp only
    simp only [enter_down, ih, evalWith_down]

/-- The value of an expression, and what it uses, does not depend on where its document begins. -/
theorem eval_down (e : Expr) : e.eval (c.down n) = e.eval c := by
  unfold eval
  rw [evalWith_down, runner_down]
  rfl

end Expr
end Worksheet
