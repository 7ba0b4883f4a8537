import LetLang.Value.Basic

/-!
# Operators on values

The results of the operators, and the errors of evaluation. Arithmetic on integers is exact
modulo `2 ^ 64`; a quotient is cut towards zero.
-/

namespace LetLang

/-- Why an evaluation fails. -/
inductive EvalError where
  | unboundName (x : String)
  | noUnary (op : UnaryOp) (operand : ValueKind)
  | typeMismatch (left : ValueKind) (op : BinaryOp) (right : ValueKind)
  | noBinary (left : ValueKind) (op : BinaryOp) (right : ValueKind)
  | notAFunction (kind : ValueKind)
  | divisionByZero
  deriving DecidableEq

/-- The wording of an error. -/
def EvalError.message : EvalError → String
  | unboundName x => "identifier not found: " ++ x
  | noUnary op operand => "unknown operator: " ++ op.symbol ++ operand.name
  | typeMismatch left op right =>
      "type mismatch: " ++ left.name ++ " " ++ op.symbol ++ " " ++ right.name
  | noBinary left op right =>
      "unknown operator: " ++ left.name ++ " " ++ op.symbol ++ " " ++ right.name
  | notAFunction kind => "not a function: " ++ kind.name
  | divisionByZero => "division by zero"

variable {α : Type}

/-- The result of a unary operator. -/
def UnaryOp.apply : UnaryOp → Value α → Except EvalError (Value α)
  | .not, a => .ok (.bool (!a.truthy))
  | .negate, .int v => .ok (.int (-v))
  | .negate, a => .error (.noUnary .negate a.kind)

/-- The result of a binary operator on two integers. -/
def BinaryOp.applyInt (op : BinaryOp) (v w : Int64) : Except EvalError (Value α) :=
  match op with
  | .equal => .ok (.bool (v == w))
  | .notEqual => .ok (.bool (v != w))
  | .lessThan => .ok (.bool (v < w))
  | .greaterThan => .ok (.bool (w < v))
  | .add => .ok (.int (v + w))
  | .subtract => .ok (.int (v - w))
  | .multiply => .ok (.int (v * w))
  | .divide => if w = 0 then .error .divisionByZero else .ok (.int (v / w))

/-- The result of a binary operator. Operands of different kinds do not go together; of other
kinds than integers, only equality can be asked. -/
def BinaryOp.apply (op : BinaryOp) (a b : Value α) : Except EvalError (Value α) :=
  if a.kind ≠ b.kind then .error (.typeMismatch a.kind op b.kind)
  else match a, b, op with
    | .int v, .int w, _ => op.applyInt v w
    | _, _, .equal => .ok (.bool (a.equals b))
    | _, _, .notEqual => .ok (.bool (!a.equals b))
    | _, _, _ => .error (.noBinary a.kind op b.kind)

end LetLang
