import Lox.Failure
import Lox.Value

/-! # Operators

What the operators do with values. An operator is known by its token, and a token that is no operator
of the needed kind is an error of its own. -/

namespace Lox.Operator

def negate (operator : Token) (v : Value) : Except RuntimeError Value :=
  match v with
  | .number x => .ok (.number (-x))
  | _ => .error ⟨operator, .operandNotNumber⟩

def unary (operator : Token) (v : Value) : Except RuntimeError Value :=
  match operator.kind with
  | .mark .minus => negate operator v
  | .mark .bang => .ok (.bool !v.isTruthy)
  | _ => .error ⟨operator, .invalidUnary⟩

/-- Numbers are added, strings are joined. -/
def add (operator : Token) (left right : Value) : Except RuntimeError Value :=
  match left, right with
  | .number x, .number y => .ok (.number (x + y))
  | .string s, .string t => .ok (.string (s ++ t))
  | _, _ => .error ⟨operator, .operandsNotAddable⟩

/-- The operators on two numbers, but for addition and equality. -/
def numeric? (kind : Kind) (x y : Float) : Option Value :=
  match kind with
  | .mark .minus => some (.number (x - y))
  | .mark .star => some (.number (x * y))
  | .mark .slash => some (.number (x / y))
  | .mark .greater => some (.bool (x > y))
  | .mark .greaterEqual => some (.bool (x ≥ y))
  | .mark .less => some (.bool (x < y))
  | .mark .lessEqual => some (.bool (x ≤ y))
  | _ => none

/-- The operands of an operator that is neither addition nor equality are looked at first. -/
def compute (operator : Token) (left right : Value) : Except RuntimeError Value :=
  match left, right with
  | .number x, .number y =>
    match numeric? operator.kind x y with
    | some v => .ok v
    | none => .error ⟨operator, .invalidBinary⟩
  | _, _ => .error ⟨operator, .operandsNotNumbers⟩

def binary (operator : Token) (left right : Value) : Except RuntimeError Value :=
  match operator.kind with
  | .mark .plus => add operator left right
  | .mark .equalEqual => .ok (.bool (left.equals right))
  | .mark .bangEqual => .ok (.bool !left.equals right)
  | _ => compute operator left right

/-- Whether the left side of a logical operator decides. Any operator but `or` is taken as `and`. -/
def decides (operator : Token) (left : Value) : Bool :=
  if operator.kind = .keyword .or then left.isTruthy else !left.isTruthy

end Lox.Operator
