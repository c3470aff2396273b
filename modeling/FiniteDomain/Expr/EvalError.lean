import FiniteDomain.Value

/-!
# Errors of evaluation

Why an expression has no value, and the wording of each reason.
-/

namespace FiniteDomain

/-- A reason why an expression has no value. -/
inductive EvalError where
  | divisionByZero
  /-- `op` is not defined on the operand, which is given by its printed form and kind. -/
  | invalidOperand (op operand : String)
  /-- A constraint has a value that is neither true nor false. -/
  | notBoolean (value : Value)
  | overflow
  | unassignedVariable (name : String)
  | unknownFunction (name : String)
  | unknownName (name : String)
  | wrongArgumentCount (function expected : String) (found : Nat)
  deriving DecidableEq

namespace EvalError

/-- The text shown for the error. -/
def message : EvalError → String
  | divisionByZero => "division by zero"
  | invalidOperand op operand => "cannot apply `" ++ op ++ "` to " ++ operand
  | notBoolean value => "expected a boolean result, found " ++ value.text
  | overflow => "integer overflow"
  | unassignedVariable name => "variable \"" ++ name ++ "\" is not assigned"
  | unknownFunction name => "unknown function \"" ++ name ++ "\""
  | unknownName name => "unknown name \"" ++ name ++ "\""
  | wrongArgumentCount function expected found =>
      function ++ "() takes " ++ expected ++ " argument(s), found " ++ toString found

/-- The error of applying `op` to a value that it is not defined on. -/
def ofOperand (op : String) (operand : Value) : EvalError :=
  .invalidOperand op (operand.text ++ " (" ++ operand.kind ++ ")")

end EvalError

end FiniteDomain
