import Worksheet.Proofs.Expr.Reads

/-! A constant that is declared anew on line `i` is seen on the lines before and hidden from line `i` on. Where an
    expression reads a name that is neither a parameter nor bound on trial, it has the meaning that it has outside of all
    calls, so the line of the evaluation decides which of the two values is read. -/

namespace Worksheet

/-! ### Reading a name -/

/-- Evaluating an expression in `c` may come to read the name `x` in `c'`: in `c` itself, or inside a call. -/
inductive Expr.ReadsIn : Context → Expr → Context → Text → Prop
  | var (c : Context) (x : Text) : ReadsIn c (.var x) c x
  | unary {c c' : Context} {op : PrefixOp} {e : Expr} {x : Text} (h : ReadsIn c e c' x) : ReadsIn c (.unary op e) c' x
  | left {c c' : Context} {op : BinaryOp} {l r : Expr} {x : Text} (h : ReadsIn c l c' x) :
      ReadsIn c (.binary op l r) c' x
  | right {c c' : Context} {op : BinaryOp} {l r : Expr} {x : Text} (h : ReadsIn c r c' x) :
      ReadsIn c (.binary op l r) c' x
  | argument {c c' : Context} {f : Text} {args : List Expr} {e : Expr} {x : Text} (he : e ∈ args)
      (h : ReadsIn c e c' x) : ReadsIn c (.call f args) c' x
  | body {c c' : Context} {f : Text} {args : List Expr} {fn : UserFunction} {values : List Float} {x : Text}
      (hf : c.function? f = some fn) (h : ReadsIn (c.enter fn.params values) fn.body c' x) :
      ReadsIn c (.call f args) c' x

namespace Context
variable {c c' : Context} {g x : Text} {v : Float}

/-- A name that is free where another one is bound is free without it, and means the same. -/
theorem find?_bind_of_free (h : (c.bind x v).bound.contains g = false) :
    c.bound.contains g = false ∧ (c.bind x v).find? g = c.find? g := by
  have h : Table.contains (c.bound.add x) g = false := h
  rw [NameSet.contains_add, Bool.or_eq_false_iff, decide_eq_false_iff_not] at h
  have hvalue : (c.bind x v).values.find? g = c.values.find? g :=
    (Table.find?_insert _ _ _ _).trans (if_neg h.1)
  have hbound : (c.bind x v).bound.contains g = c.bound.contains g := by
    show Table.contains (c.bound.add x) g = _
    rw [NameSet.contains_add, decide_eq_false h.1, Bool.false_or]
  refine ⟨h.2, ?_⟩
  unfold find?
  rw [hvalue, hbound]
  rfl

theorem find?_enter_of_free {params : List Text} {args : List Float}
    (h : (c.enter params args).bound.contains g = false) :
    c.bound.contains g = false ∧ (c.enter params args).find? g = c.find? g := by
  have hdeeper : ({ c with depth := c.depth + 1 } : Context).find? g = c.find? g := rfl
  have hbound : ({ c with depth := c.depth + 1 } : Context).bound = c.bound := rfl
  unfold enter at h ⊢
  dsimp only at h ⊢
  rw [← hdeeper, ← hbound]
  generalize ({ c with depth := c.depth + 1 } : Context) = d at h ⊢
  generalize params.zip (args ++ List.replicate params.length 0.0) = ps at h ⊢
  -- parameters are bound one after the other, and `g` is none of them
  induction ps generalizing d with
  | nil => exact ⟨h, rfl⟩
  | cons p ps ih =>
    obtain ⟨hfree, heq⟩ := ih (d.bind p.1 p.2) h
    obtain ⟨hfree, heq'⟩ := find?_bind_of_free hfree
    exact ⟨hfree, heq.trans heq'⟩

/-- A name that is free where it is read means what it means outside of all calls. -/
theorem find?_of_readsIn {e : Expr} (h : e.ReadsIn c c' g) (hfree : c'.bound.contains g = false) :
    c.bound.contains g = false ∧ c'.find? g = c.find? g := by
  induction h with
  | var c x => exact ⟨hfree, rfl⟩
  | unary _ ih => exact ih hfree
  | left _ ih => exact ih hfree
  | right _ ih => exact ih hfree
  | argument _ _ ih => exact ih hfree
  | body _ _ ih =>
    obtain ⟨hinner, heq⟩ := ih hfree
    obtain ⟨houter, heq'⟩ := find?_enter_of_free hinner
    exact ⟨houter, heq.trans heq'⟩

/-! ### Before and after the declaration -/

/-- The constant `g` is seen on every line. -/
structure Seen (g : Text) (k : Constant) (c : Context) : Prop where
  constant : c.constants.find? g = some k
  bound : c.bound.contains g = false
  value : c.values.find? g = none
  shadowed : c.shadowed.find? g = none

/-- The constant `g` is hidden by the value `v` from line `i` on. -/
structure Hidden (g : Text) (k : Constant) (i : Nat) (v : Float) (c : Context) : Prop where
  constant : c.constants.find? g = some k
  bound : c.bound.contains g = false
  value : c.values.find? g = some v
  shadowed : c.shadowed.find? g = some (i : Int)

/-- Two contexts that agree on `g`. -/
structure Agree (g : Text) (c c' : Context) : Prop where
  constants : c'.constants = c.constants
  bound : c'.bound = c.bound
  value : c'.values.find? g = c.values.find? g
  shadowed : c'.shadowed.find? g = c.shadowed.find? g

variable {k : Constant} {i line : Nat}

theorem Agree.refl (g : Text) (c : Context) : Agree g c c := ⟨rfl, rfl, rfl, rfl⟩

theorem Agree.trans {c'' : Context} (h : Agree g c c') (h' : Agree g c' c'') : Agree g c c'' :=
  ⟨h'.constants.trans h.constants, h'.bound.trans h.bound, h'.value.trans h.value, h'.shadowed.trans h.shadowed⟩

theorem agree_shadow (c : Context) (h : x ≠ g) (line : Int) : Agree g c (c.shadow x line) := by
  unfold shadow
  split
  · exact ⟨rfl, rfl, rfl, (Table.find?_insert _ _ _ _).trans (if_neg h)⟩
  · exact .refl g c

theorem agree_setVariable (c : Context) (h : x ≠ g) (v : Float) : Agree g c (c.setVariable x v) :=
  ⟨rfl, rfl, (Table.find?_insert _ _ _ _).trans (if_neg h), rfl⟩

theorem Seen.agree (h : Seen g k c) (hagree : Agree g c c') : Seen g k c' where
  constant := hagree.constants ▸ h.constant
  bound := hagree.bound ▸ h.bound
  value := hagree.value.trans h.value
  shadowed := hagree.shadowed.trans h.shadowed

theorem Hidden.agree (h : Hidden g k i v c) (hagree : Agree g c c') : Hidden g k i v c' where
  constant := hagree.constants ▸ h.constant
  bound := hagree.bound ▸ h.bound
  value := hagree.value.trans h.value
  shadowed := hagree.shadowed.trans h.shadowed

theorem Hidden.learns (h : Hidden g k i v c) (hlearns : c.Learns c') : Hidden g k i v c' where
  constant := hlearns.constants ▸ h.constant
  bound := hlearns.bound ▸ h.bound
  value := hlearns.values g v h.value
  shadowed := hlearns.shadowed ▸ h.shadowed

theorem Seen.find? (h : Seen g k c) (line : Int) : (c.setLine line).find? g = some (.ofConstant k.value) := by
  have hvalue : (c.setLine line).values.find? g = none := h.value
  have hconstant : (c.setLine line).constants.find? g = some k := h.constant
  have hshadowed : (c.setLine line).shadowed.find? g = none := h.shadowed
  unfold Context.find?
  rw [hvalue, hconstant]
  simp [constantVisible, Table.contains, hconstant, hshadowed]

theorem Hidden.find? (h : Hidden g k i v c) (line : Int) :
    (c.setLine line).find? g = if line < i then some (.ofConstant k.value) else some (.ofVariable v) := by
  have hvalue : (c.setLine line).values.find? g = some v := h.value
  have hconstant : (c.setLine line).constants.find? g = some k := h.constant
  have hshadowed : (c.setLine line).shadowed.find? g = some (i : Int) := h.shadowed
  have hbound : (c.setLine line).bound.contains g = false := h.bound
  have hline : (c.setLine line).line = line := rfl
  unfold Context.find?
  rw [hvalue, hconstant]
  dsimp only
  rw [hbound, if_neg Bool.false_ne_true]
  simp [constantVisible, Table.contains, hconstant, hshadowed, hline]

theorem find?_ne_variable (h : c.values.find? g = none) (w : Float) : c.find? g ≠ some (.ofVariable w) := by
  unfold Context.find?
  rw [h]
  cases c.constants.find? g with
  | none => exact nofun
  | some k =>
    dsimp only
    split <;> exact nofun

/-- The first declaration hides the constant, and a later one does not change that. -/
theorem Seen.shadow (h : Seen g k c) (line : Int) :
    c.shadow g line = { c with shadowed := c.shadowed.insert g line } := by
  unfold Context.shadow
  rw [if_pos]
  simp [Table.contains, h.constant, h.shadowed]

theorem Hidden.shadow (h : Hidden g k i v c) (hline : i < line) : c.shadow g line = c := by
  unfold Context.shadow
  rw [if_neg]
  simp [h.shadowed]
  omega

end Context

end Worksheet
