import Worksheet.Table

/-! Evaluations: a value or an error, together with the shared names that were used on the way. The names
    are only collected, so what an evaluation yields does not depend on what was used before it. -/

namespace Worksheet

/-- Why an expression has no value. -/
inductive EvalError where
  | undefinedVariable (name : Text)
  | divisionByZero
  | unknownOperator (symbol : Text)
  | unknownFunction (function : Text)
  | tooFewArguments (function : Text) (least : Nat)
  | tooManyArguments (function : Text) (most : Nat)
  /-- `if` with fewer than two arguments or more than three. -/
  | conditionArguments
  /-- A call inside too many others. -/
  | tooDeep (function : Text)
  deriving DecidableEq

/-- The wording of an error. A message ends before a NUL. -/
def EvalError.message : EvalError → Text
  | undefinedVariable name => Text.untilNul ("Undefined variable: ".toList ++ name)
  | divisionByZero => "Division by zero".toList
  | unknownOperator symbol => Text.untilNul ("Unknown operator '".toList ++ symbol ++ ['\''])
  | unknownFunction function => Text.untilNul ("Unknown function: ".toList ++ function)
  | tooFewArguments function least =>
    Text.untilNul (function ++ "() requires at least ".toList ++ Text.ofNat least ++ " argument(s)".toList)
  | tooManyArguments function most =>
    Text.untilNul (function ++ "() takes at most ".toList ++ Text.ofNat most ++ " argument(s)".toList)
  | conditionArguments => "if() requires 2 or 3 arguments".toList
  | tooDeep function => Text.untilNul ("Recursion too deep in ".toList ++ function ++ "()".toList)

/-- The shared constants and the functions that were used, the functions in small letters. -/
structure Usage where
  constants : NameSet := ∅
  functions : NameSet := ∅

def Usage.union (u v : Usage) : Usage := ⟨u.constants.union v.constants, u.functions.union v.functions⟩

structure Evaluation (α : Type) where
  result : Except EvalError α
  used : Usage := {}

namespace Evaluation
variable {α β : Type}

/-- Goes on after a value; an error ends the evaluation. -/
def andThen (x : Evaluation α) (f : α → Evaluation β) : Evaluation β :=
  match x.result with
  | .ok v => ⟨(f v).result, x.used.union (f v).used⟩
  | .error e => ⟨.error e, x.used⟩

instance : Monad Evaluation where
  pure v := ⟨.ok v, {}⟩
  bind := andThen

def fail (e : EvalError) : Evaluation α := ⟨.error e, {}⟩

/-- The value if there is one, else an error. -/
def ofOption (e : EvalError) : Option α → Evaluation α
  | some v => pure v
  | none => fail e

def useConstant (name : Text) : Evaluation Unit := ⟨.ok (), { constants := NameSet.add ∅ name }⟩

def useFunction (name : Text) : Evaluation Unit := ⟨.ok (), { functions := NameSet.add ∅ name }⟩

@[simp] theorem result_pure (v : α) : (pure v : Evaluation α).result = .ok v := rfl

theorem result_bind (x : Evaluation α) (f : α → Evaluation β) :
    (x >>= f).result = x.result.bind fun v => (f v).result := by
  show (andThen x f).result = _
  unfold andThen Except.bind
  cases x.result <;> rfl

end Evaluation
end Worksheet
