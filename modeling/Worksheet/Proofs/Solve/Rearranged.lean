import Mathlib.Algebra.Field.Basic
import Mathlib.Algebra.Field.Rat
import Worksheet.Proofs.Solve.SecondPass

/-! Rearranged equations in exact arithmetic. Numbers, names and everything that is no sum, difference, product or
    quotient have any values in a field, or none. Moving an operand across one of the four operators keeps what an
    equation says: its sides are equal exactly if the name has the value of the expression it is defined by. -/

namespace Worksheet

/-! ### Operators -/

namespace BinaryOp

/-- The operators that a field has. -/
def arithmetic : List BinaryOp := [add, subtract, multiply, divide]

/-- The operator that takes back what the operator has done to its left operand. -/
def inverse : BinaryOp → BinaryOp
  | add => subtract
  | subtract => add
  | multiply => divide
  | divide => multiply
  | op => op

theorem mem_arithmetic {op : BinaryOp} :
    op ∈ arithmetic ↔ op = add ∨ op = subtract ∨ op = multiply ∨ op = divide := by
  simp [arithmetic]

theorem commutes_or_not :
    ∀ op ∈ arithmetic, (op = add ∨ op = multiply) ∨ op = subtract ∨ op = divide := by decide

theorem inverse_mem_arithmetic : ∀ op ∈ arithmetic, op.inverse ∈ arithmetic := by decide

section Field
variable {K : Type*} [Field K] [DecidableEq K] {op : BinaryOp} {x y r a v : K}

/-- What an operator makes of two elements of a field. Nothing is divided by zero. -/
def inField? (op : BinaryOp) (a b : K) : Option K :=
  match op with
  | add => some (a + b)
  | subtract => some (a - b)
  | multiply => some (a * b)
  | divide => if b = 0 then none else some (a / b)
  | _ => none

theorem inField?_divide_eq_some : divide.inField? x y = some a ↔ y ≠ 0 ∧ x / y = a := by
  simp [inField?]

theorem inField?_comm (hop : op = add ∨ op = multiply) (x y : K) : op.inField? x y = op.inField? y x := by
  rcases hop with rfl | rfl
  · exact congrArg some (add_comm x y)
  · exact congrArg some (mul_comm x y)

/-- The left operand is had back from the result by the inverse operator. -/
theorem eq_iff_of_inverse (hop : op ∈ arithmetic) (ha : op.inField? x y = some a)
    (hv : op.inverse.inField? r y = some v) : a = r ↔ x = v := by
  rcases mem_arithmetic.mp hop with rfl | rfl | rfl | rfl
  · obtain rfl : x + y = a := Option.some.inj ha
    obtain rfl : r - y = v := Option.some.inj hv
    exact eq_sub_iff_add_eq.symm
  · obtain rfl : x - y = a := Option.some.inj ha
    obtain rfl : r + y = v := Option.some.inj hv
    exact sub_eq_iff_eq_add
  · obtain rfl : x * y = a := Option.some.inj ha
    obtain ⟨hy, rfl⟩ := inField?_divide_eq_some.mp hv
    exact (eq_div_iff hy).symm
  · obtain ⟨hy, rfl⟩ := inField?_divide_eq_some.mp ha
    obtain rfl : r * y = v := Option.some.inj hv
    exact div_eq_iff hy

/-- The right operand of a difference or of a quotient is had back from the result by the same operator. -/
theorem eq_iff_of_same (hop : op = subtract ∨ op = divide) (ha : op.inField? y x = some a)
    (hv : op.inField? y r = some v) : a = r ↔ x = v := by
  rcases hop with rfl | rfl
  · obtain rfl : y - x = a := Option.some.inj ha
    obtain rfl : y - r = v := Option.some.inj hv
    exact sub_eq_iff_comm.trans eq_comm
  · obtain ⟨hx, rfl⟩ := inField?_divide_eq_some.mp ha
    obtain ⟨hr, rfl⟩ := inField?_divide_eq_some.mp hv
    rw [div_eq_iff hx, eq_div_iff hr, mul_comm r x, eq_comm]

end Field
end BinaryOp

/-! ### Expressions -/

/-- The operator of an expression that is an operator between two operands. -/
def Expr.operator? : Expr → Option BinaryOp
  | binary op _ _ => some op
  | _ => none

/-- What the parts of expressions stand for in exact arithmetic: numbers with their bases, names, and as `rest` the
    expressions that are no sum, difference, product or quotient. A part may be undefined. -/
structure Interpretation (K : Type*) where
  number : Float → Nat → Option K
  name : Text → Option K
  rest : Expr → Option K

namespace Interpretation
variable {K : Type*} [Field K] [DecidableEq K] {I : Interpretation K}

/-- The exact value of an expression, if its parts are defined and no divisor is zero. -/
def value (I : Interpretation K) : Expr → Option K
  | .number v base => I.number v base
  | .var x => I.name x
  | .unary op e => I.rest (.unary op e)
  | .binary op l r =>
    if op ∈ BinaryOp.arithmetic then do op.inField? (← value I l) (← value I r) else I.rest (.binary op l r)
  | .call f args => I.rest (.call f args)

variable {op : BinaryOp} {l r : Expr} {a b v : K}

theorem value_binary (hop : op ∈ BinaryOp.arithmetic) (hl : I.value l = some a) (hr : I.value r = some b) :
    I.value (.binary op l r) = op.inField? a b := by
  rw [value, if_pos hop, hl, hr]
  rfl

theorem exists_of_value_binary (hop : op ∈ BinaryOp.arithmetic) (h : I.value (.binary op l r) = some v) :
    ∃ a b, I.value l = some a ∧ I.value r = some b ∧ op.inField? a b = some v := by
  rw [value, if_pos hop] at h
  obtain ⟨a, hl, h⟩ := Option.bind_eq_some_iff.mp h
  obtain ⟨b, hr, h⟩ := Option.bind_eq_some_iff.mp h
  exact ⟨a, b, hl, hr, h⟩

end Interpretation

namespace Definition
open BinaryOp Interpretation

/-! ### One operator -/

section Undo
variable {op : BinaryOp} {result other e : Expr} {x : Text}

theorem undoLeft?_of_arithmetic (hop : op ∈ arithmetic) (result other : Expr) :
    undoLeft? op result other = some (.binary op.inverse result other) := by
  rcases mem_arithmetic.mp hop with rfl | rfl | rfl | rfl <;> rfl

theorem undoRight?_of_commutes (hop : op = add ∨ op = multiply) (result other : Expr) :
    undoRight? op result other = undoLeft? op result other := by
  rcases hop with rfl | rfl <;> rfl

theorem undoRight?_of_same (hop : op = subtract ∨ op = divide) (result other : Expr) :
    undoRight? op result other = some (.binary op other result) := by
  rcases hop with rfl | rfl <;> rfl

variable {K : Type*} [Field K] [DecidableEq K] {I : Interpretation K} {a b v : K}

theorem eq_iff_of_undoLeft (hop : op ∈ arithmetic) (h : undoLeft? op result other = some e)
    (hside : I.value (.binary op (.var x) other) = some a) (hresult : I.value result = some b)
    (he : I.value e = some v) : a = b ↔ I.name x = some v := by
  obtain rfl := Option.some.inj ((undoLeft?_of_arithmetic hop result other).symm.trans h)
  obtain ⟨w, y, hx, hother, ha⟩ := exists_of_value_binary hop hside
  have hv : op.inverse.inField? b y = some v :=
    (value_binary (inverse_mem_arithmetic op hop) hresult hother).symm.trans he
  have hx : I.name x = some w := hx
  rw [hx, Option.some_inj]
  exact eq_iff_of_inverse hop ha hv

theorem eq_iff_of_undoRight (hop : op ∈ arithmetic) (h : undoRight? op result other = some e)
    (hside : I.value (.binary op other (.var x)) = some a) (hresult : I.value result = some b)
    (he : I.value e = some v) : a = b ↔ I.name x = some v := by
  obtain ⟨y, w, hother, hx, ha⟩ := exists_of_value_binary hop hside
  rcases commutes_or_not op hop with hcommutes | hsame
  · -- the operands may as well be exchanged
    rw [undoRight?_of_commutes hcommutes] at h
    have hexchanged : I.value (.binary op (.var x) other) = some a :=
      (value_binary hop hx hother).trans ((inField?_comm hcommutes w y).trans ha)
    exact eq_iff_of_undoLeft hop h hexchanged hresult he
  · obtain rfl := Option.some.inj ((undoRight?_of_same hsame result other).symm.trans h)
    have hv : op.inField? y b = some v := (value_binary hop hother hresult).symm.trans he
    have hx : I.name x = some w := hx
    rw [hx, Option.some_inj]
    exact eq_iff_of_same hsame ha hv

end Undo

/-! ### Equations -/

/-- The defined name is an operand of an expression, and the definition undoes the operator `op` around it. -/
inductive Undoes (d : Definition) (op : BinaryOp) (result : Expr) : Expr → Prop
  | left {other : Expr} (h : undoLeft? op result other = some d.expr) :
    Undoes d op result (.binary op (.var d.name) other)
  | right {other : Expr} (h : undoRight? op result other = some d.expr) :
    Undoes d op result (.binary op other (.var d.name))

/-- The operator that `derive?` undoes: that of the left side, if this side gives a definition, else that of the right
    side. -/
def undone? (c : Context) (left right : Expr) : Option BinaryOp :=
  if (fromSide? c left right).isSome then left.operator? else right.operator?

section Sides
variable {c : Context} {left right side result e : Expr} {d : Definition} {op : BinaryOp} {x : Text}

theorem eq_var_of_unknownOperand? (h : unknownOperand? c e = some x) : e = .var x := by
  cases e <;> simp_all [unknownOperand?, Expr.name?]

theorem undoes_of_fromSide? (h : fromSide? c side result = some d) :
    ∃ op, side.operator? = some op ∧ d.Undoes op result side := by
  cases side with
  | binary op l r =>
    refine ⟨op, rfl, ?_⟩
    rcases Option.or_eq_some_iff.mp h with hleft | ⟨-, hright⟩
    · obtain ⟨x, hx, hleft⟩ := Option.bind_eq_some_iff.mp hleft
      obtain ⟨e, he, rfl⟩ := Option.map_eq_some_iff.mp hleft
      obtain rfl := eq_var_of_unknownOperand? hx
      exact .left he
    · obtain ⟨x, hx, hright⟩ := Option.bind_eq_some_iff.mp hright
      obtain ⟨e, he, rfl⟩ := Option.map_eq_some_iff.mp hright
      obtain rfl := eq_var_of_unknownOperand? hx
      exact .right he
  | number v b => cases h
  | var x => cases h
  | unary op e => cases h
  | call f args => cases h

/-- A derived definition undoes the operator of one of the sides. -/
theorem undoes_of_derive? (h : derive? c ⟨left, some right⟩ = some d) :
    ∃ op, undone? c left right = some op ∧ (d.Undoes op right left ∨ d.Undoes op left right) := by
  unfold undone?
  rcases Option.or_eq_some_iff.mp h with hleft | ⟨hnone, hright⟩
  · obtain ⟨op, hop, hundoes⟩ := undoes_of_fromSide? hleft
    refine ⟨op, ?_, .inl hundoes⟩
    rw [hleft, Option.isSome_some, if_pos rfl, hop]
  · obtain ⟨op, hop, hundoes⟩ := undoes_of_fromSide? hright
    refine ⟨op, ?_, .inr hundoes⟩
    have hnone : fromSide? c left right = none := hnone
    rw [hnone, Option.isSome_none, if_neg Bool.false_ne_true, hop]

/-- Only the base of a power is had back by an operator that a field does not have. -/
theorem Undoes.arithmetic_or_power (h : d.Undoes op result side) : op ∈ arithmetic ∨ op = power := by
  cases h with
  | left h => cases op <;> simp_all [undoLeft?, arithmetic]
  | right h => cases op <;> simp_all [undoRight?, arithmetic]

section Field
variable {K : Type*} [Field K] [DecidableEq K] {I : Interpretation K} {a b v : K}

theorem Undoes.eq_iff (h : d.Undoes op result side) (hop : op ∈ arithmetic) (hside : I.value side = some a)
    (hresult : I.value result = some b) (he : I.value d.expr = some v) : a = b ↔ I.name d.name = some v := by
  cases h with
  | left h => exact eq_iff_of_undoLeft hop h hside hresult he
  | right h => exact eq_iff_of_undoRight hop h hside hresult he

/-- A name by itself on a side. -/
theorem eq_iff_of_ofSides (h : ofSides? ⟨left, some right⟩ = some d) (hleft : I.value left = some a)
    (hright : I.value right = some b) (he : I.value d.expr = some v) : a = b ↔ I.name d.name = some v := by
  rcases sides_ofSides h with ⟨rfl, rfl⟩ | ⟨rfl, rfl⟩
  · obtain rfl := Option.some.inj (hright.symm.trans he)
    have hname : I.name d.name = some a := hleft
    rw [hname, Option.some_inj]
  · obtain rfl := Option.some.inj (hleft.symm.trans he)
    have hname : I.name d.name = some b := hright
    rw [hname, Option.some_inj, eq_comm]

/-- A name as an operand of a side; which side does not matter. -/
theorem eq_iff_of_derive (h : derive? c ⟨left, some right⟩ = some d) (hundone : undone? c left right = some op)
    (hop : op ∈ arithmetic) (hleft : I.value left = some a) (hright : I.value right = some b)
    (he : I.value d.expr = some v) : a = b ↔ I.name d.name = some v := by
  obtain ⟨op', hundone', hundoes⟩ := undoes_of_derive? h
  obtain rfl := Option.some.inj (hundone.symm.trans hundone')
  rcases hundoes with hundoes | hundoes
  · exact hundoes.eq_iff hop hleft hright he
  · exact eq_comm.trans (hundoes.eq_iff hop hright hleft he)

/-- An equation and the definition that it is rearranged to say the same in every field, whatever the numbers, the
    names and the other parts of the expressions stand for, as long as both sides and the definition have values. The
    name may stand in its own definition. A definition that undoes a power is left out, since it loses roots. -/
theorem sides_eq_iff (I : Interpretation K)
    (h : ofSides? ⟨left, some right⟩ = some d ∨
      derive? c ⟨left, some right⟩ = some d ∧ ∃ op, undone? c left right = some op ∧ op ∈ arithmetic)
    (hleft : I.value left = some a) (hright : I.value right = some b) (he : I.value d.expr = some v) :
    a = b ↔ I.name d.name = some v := by
  rcases h with h | ⟨h, op, hundone, hop⟩
  · exact eq_iff_of_ofSides h hleft hright he
  · exact eq_iff_of_derive h hundone hop hleft hright he

end Field
end Sides

/-- The divisor `h` of a quotient, which stands on the other side too, at a value at which the sides are equal and at
    one at which they are not. -/
theorem sides_eq_iff_divisor :
    let left := Expr.binary .divide (.var ['w']) (.var ['h'])
    let right := Expr.binary .add (.var ['h']) (.call "sqrt".toList [.var ['t']])
    let d : Definition := ⟨['h'], .binary .divide (.var ['w']) right⟩
    let c : Context := { values := Table.insert ∅ ['w'] 6.0 }
    let I : ℚ → Interpretation ℚ := fun h =>
      { number := fun _ _ => none
        name := fun x => if x = ['w'] then some 6 else if x = ['h'] then some h else none
        rest := fun _ => some 1 }
    Equation.parseSides "w / h = h + sqrt(t)".toList = .ok ⟨left, some right⟩ ∧
      derive? c ⟨left, some right⟩ = some d ∧ undone? c left right = some divide ∧
      ((I 2).value left = some 3 ∧ (I 2).value right = some 3 ∧ (I 2).value d.expr = some 2 ∧
        (I 2).name ['h'] = some 2) ∧
      ((I 3).value left = some 2 ∧ (I 3).value right = some 4 ∧ (I 3).value d.expr = some (3 / 2) ∧
        (I 3).name ['h'] ≠ some (3 / 2)) := by
  intro left right d c I
  have hderive : derive? c ⟨left, some right⟩ = some d := by rfl
  have hundone : undone? c left right = some divide := by rfl
  have hgives : ofSides? ⟨left, some right⟩ = some d ∨
      derive? c ⟨left, some right⟩ = some d ∧ ∃ op, undone? c left right = some op ∧ op ∈ arithmetic :=
    .inr ⟨hderive, divide, hundone, by decide⟩
  have htwo : (I 2).value left = some 3 ∧ (I 2).value right = some 3 ∧ (I 2).value d.expr = some 2 := by
    decide +kernel
  have hthree : (I 3).value left = some 2 ∧ (I 3).value right = some 4 ∧ (I 3).value d.expr = some (3 / 2) := by
    decide +kernel
  obtain ⟨hleft, hright, he⟩ := htwo
  obtain ⟨hleft', hright', he'⟩ := hthree
  refine ⟨by rfl, hderive, hundone, ⟨hleft, hright, he, ?_⟩, hleft', hright', he', ?_⟩
  · exact (sides_eq_iff (I 2) hgives hleft hright he).mp rfl
  · intro hname
    exact absurd ((sides_eq_iff (I 3) hgives hleft' hright' he').mpr hname) (by decide)

end Definition

/-! ### Eliminations -/

namespace Eliminations
variable {m : Eliminations} {c : Context} {line : Nat} {sides : Sides} {d : Definition} {x : Text} {el : Elimination}

/-- The entries of a table with one more definition. -/
theorem find?_insert_cases (h : Table.find? (Table.insert m d.name ⟨d.expr, line⟩) x = some el) :
    Table.find? m x = some el ∨ d = ⟨x, el.expr⟩ := by
  rw [Table.find?_insert] at h
  split at h
  · rename_i hname
    obtain rfl := Option.some.inj h
    exact .inr (hname ▸ rfl)
  · exact .inl h

theorem find?_addSides (h : Table.find? (m.addSides c line sides) x = some el) :
    Table.find? m x = some el ∨
      Definition.ofSides? sides = some ⟨x, el.expr⟩ ∨ Definition.derive? c sides = some ⟨x, el.expr⟩ := by
  unfold addSides at h
  cases hgiven : (Definition.ofSides? sides).filter (m.wants c) with
  | some d =>
    rw [hgiven] at h
    have hd := (Option.filter_eq_some_iff.mp hgiven).1
    rcases find?_insert_cases h with h | rfl
    · exact .inl h
    · exact .inr (.inl hd)
  | none =>
    rw [hgiven] at h
    cases hderived : (Definition.derive? c sides).filter (m.wants c) with
    | some d =>
      rw [hderived] at h
      have hd := (Option.filter_eq_some_iff.mp hderived).1
      rcases find?_insert_cases h with h | rfl
      · exact .inl h
      · exact .inr (.inr hd)
    | none =>
      rw [hderived] at h
      exact .inl h

end Eliminations

namespace SolveState
variable {s : SolveState} {equations : List Equation} {x : Text} {el : Elimination}

/-- One of the equations makes the definition, as it stands or rearranged. -/
def Makes (s : SolveState) (equations : List Equation) (d : Definition) : Prop :=
  ∃ eq ∈ equations, ∃ sides, Equation.parseSides eq.text = .ok sides ∧
    (Definition.ofSides? sides = some d ∨ Definition.derive? (s.contextAt eq.firstLine) sides = some d)

/-- What a round puts in place of a name is a definition that one of the equations makes. -/
theorem makes_of_eliminations :
    ∀ el, Table.find? (s.eliminations equations) x = some el → s.Makes equations ⟨x, el.expr⟩ := by
  refine List.foldlRecOn equations _
    (motive := fun m => ∀ el : Elimination, Table.find? m x = some el → s.Makes equations ⟨x, el.expr⟩) ?_ ?_
  · intro el hel
    cases hel
  · intro m hm eq heq el hel
    split at hel
    · exact hm el hel
    · rename_i sides hsides
      rcases Eliminations.find?_addSides hel with hel | hel
      · exact hm el hel
      · exact ⟨eq, heq, sides, hsides, hel⟩

section Field
variable {K : Type*} [Field K] [DecidableEq K] {I : Interpretation K} {v : K}

/-- The two sides of every equation that has both have the same value. -/
def Hold (I : Interpretation K) (equations : List Equation) : Prop :=
  ∀ eq ∈ equations, ∀ left right, Equation.parseSides eq.text = .ok ⟨left, some right⟩ →
    ∃ a, I.value left = some a ∧ I.value right = some a

/-- Where the equations of a round hold, every name has the value of what the round puts in its place, unless this
    undoes a power. -/
theorem name_eq_of_eliminations (hhold : Hold I equations) (h : Table.find? (s.eliminations equations) x = some el)
    (hv : I.value el.expr = some v) :
    I.name x = some v ∨ ∃ eq ∈ equations, ∃ left right, Equation.parseSides eq.text = .ok ⟨left, some right⟩ ∧
      Definition.undone? (s.contextAt eq.firstLine) left right = some .power := by
  obtain ⟨eq, heq, ⟨left, _ | right⟩, hsides, hmade⟩ := makes_of_eliminations el h
  · rcases hmade with hmade | hmade <;> cases hmade
  · obtain ⟨a, hleft, hright⟩ := hhold eq heq left right hsides
    rcases hmade with hgiven | hderived
    · exact .inl ((Definition.eq_iff_of_ofSides hgiven hleft hright hv).mp rfl)
    · obtain ⟨op, hundone, hundoes⟩ := Definition.undoes_of_derive? hderived
      have hkind : op ∈ BinaryOp.arithmetic ∨ op = .power :=
        hundoes.elim Definition.Undoes.arithmetic_or_power Definition.Undoes.arithmetic_or_power
      rcases hkind with hop | rfl
      · exact .inl ((Definition.eq_iff_of_derive hderived hundone hop hleft hright hv).mp rfl)
      · exact .inr ⟨eq, heq, left, right, hsides, hundone⟩

end Field
end SolveState
end Worksheet
