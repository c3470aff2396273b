import FiniteDomain.Expr.Evaluation

/-!
# Failures of evaluation

An expression fails by its operands, by names that stand for nothing or by calls. It never fails by a variable without
a value (`eval_neverUnassigned`): only who collects the values of the variables can miss one.
-/

namespace FiniteDomain

variable {α β : Type}

/-- The computation does not fail by a variable without a value. -/
def NeverUnassigned (x : Except EvalError α) : Prop :=
  ∀ name, x ≠ .error (.unassignedVariable name)

namespace NeverUnassigned

@[simp] theorem ok (a : α) : NeverUnassigned (.ok a) :=
  fun _ h => by cases h

@[simp] theorem ofOperand (op : String) (v : Value) :
    NeverUnassigned (α := α) (.error (.ofOperand op v)) :=
  fun _ h => by cases h

/-- One computation after the other. -/
theorem bind {x : Except EvalError α} {f : α → Except EvalError β} (hx : NeverUnassigned x)
    (hf : ∀ a, NeverUnassigned (f a)) : NeverUnassigned (x >>= f) := by
  intro name h
  cases x with
  | error e => exact hx name (congrArg Except.error (Except.error.inj h))
  | ok a => exact hf a name h

theorem map {x : Except EvalError α} (hx : NeverUnassigned x) (f : α → β) :
    NeverUnassigned (do return f (← x)) :=
  hx.bind fun a => ok (f a)

end NeverUnassigned

open NeverUnassigned

/-! ## Operators -/

namespace Operand

theorem integer_neverUnassigned (op : String) (v : Value) : NeverUnassigned (integer op v) := by
  cases v <;> simp [integer]

theorem truth_neverUnassigned (op : String) (v : Value) : NeverUnassigned (truth op v) := by
  cases v <;> simp [truth]

theorem items_neverUnassigned (op : String) (v : Value) : NeverUnassigned (items op v) := by
  cases v <;> simp [items]

theorem word_neverUnassigned (n : Option Int64) : NeverUnassigned (word n) := by
  cases n <;> simp [word, NeverUnassigned]

theorem arithmetic_neverUnassigned (op : String) (f : Int64 → Int64 → Option Int64) (a b : Value) :
    NeverUnassigned (arithmetic op f a b) :=
  (integer_neverUnassigned op a).bind fun _ =>
    (integer_neverUnassigned op b).bind fun _ => word_neverUnassigned _

theorem division_neverUnassigned (op : String) (f : Int64 → Int64 → Option Int64) (a b : Value) :
    NeverUnassigned (division op f a b) := by
  unfold division
  split
  · simp [NeverUnassigned]
  · exact arithmetic_neverUnassigned op f a b

theorem addition_neverUnassigned (op : String) (a b : Value) : NeverUnassigned (addition op a b) := by
  unfold addition
  split
  · exact ok _
  · exact ok _
  · exact arithmetic_neverUnassigned op _ _ _

theorem order_neverUnassigned (op : String) (a b : Value) : NeverUnassigned (order op a b) := by
  unfold order
  split <;> simp

theorem membership_neverUnassigned (op : String) (a b : Value) : NeverUnassigned (membership op a b) := by
  unfold membership
  split <;> simp

end Operand

open Operand

theorem UnaryOp.apply_neverUnassigned (op : UnaryOp) (v : Value) : NeverUnassigned (op.apply v) := by
  cases op with
  | not => exact (truth_neverUnassigned _ v).map _
  | neg => exact (integer_neverUnassigned _ v).bind fun _ => word_neverUnassigned _

theorem BinaryOp.apply_neverUnassigned (op : BinaryOp) (a b : Value) : NeverUnassigned (op.apply a b) := by
  cases op with
  | eq => exact ok _
  | ne => exact ok _
  | lt | gt | le | ge => exact (order_neverUnassigned _ a b).map _
  | mem | notMem => exact (membership_neverUnassigned _ a b).map _
  | add => exact addition_neverUnassigned _ a b
  | sub | mul => exact arithmetic_neverUnassigned _ _ a b
  | div | rem => exact division_neverUnassigned _ _ a b
  | and | or =>
      exact (truth_neverUnassigned _ a).bind fun _ => (truth_neverUnassigned _ b).map _

/-! ## Functions -/

namespace Builtin

theorem onlyArgument_neverUnassigned (f : Builtin) (args : List Value) :
    NeverUnassigned (onlyArgument f args) := by
  unfold onlyArgument
  split <;> simp [NeverUnassigned]

theorem size_neverUnassigned (v : Value) : NeverUnassigned (size v) := by
  cases v <;> simp [size]

theorem sumFrom_neverUnassigned (total : Int64) (vs : List Value) : NeverUnassigned (sumFrom total vs) := by
  induction vs generalizing total with
  | nil => exact ok _
  | cons v vs ih =>
      refine (integer_neverUnassigned _ v).bind fun n => ?_
      split
      · exact ih _
      · simp [NeverUnassigned]

theorem extremeFrom_neverUnassigned (f : Builtin) (side : Ordering) (best : Value) (vs : List Value) :
    NeverUnassigned (extremeFrom f side best vs) := by
  induction vs generalizing best with
  | nil => exact ok _
  | cons v vs ih => exact (order_neverUnassigned _ v best).bind fun _ => ih _

theorem extreme_neverUnassigned (f : Builtin) (side : Ordering) (args : List Value) :
    NeverUnassigned (extreme f side args) := by
  unfold extreme
  dsimp only
  split
  · refine (items_neverUnassigned _ _).bind fun values => ?_
    cases values with
    | nil => simp [NeverUnassigned]
    | cons v vs => exact extremeFrom_neverUnassigned f side v vs
  · refine (ok _).bind fun values => ?_
    cases values with
    | nil => simp [NeverUnassigned]
    | cons v vs => exact extremeFrom_neverUnassigned f side v vs

theorem apply_neverUnassigned (f : Builtin) (args : List Value) : NeverUnassigned (f.apply args) := by
  have honly := onlyArgument_neverUnassigned f args
  cases f with
  | abs =>
      exact honly.bind fun v => (integer_neverUnassigned _ v).bind fun _ => word_neverUnassigned _
  | len => exact honly.bind size_neverUnassigned
  | sum =>
      exact honly.bind fun v => (items_neverUnassigned _ v).bind fun _ => sumFrom_neverUnassigned 0 _
  | min => exact extreme_neverUnassigned _ _ args
  | max => exact extreme_neverUnassigned _ _ args

theorem call_neverUnassigned (function : String) (args : List Value) :
    NeverUnassigned (call function args) := by
  unfold call
  split
  · exact apply_neverUnassigned _ args
  · simp [NeverUnassigned]

end Builtin

/-! ## Expressions -/

namespace Expr

mutual
/-- An expression never fails by a variable without a value. -/
theorem eval_neverUnassigned (slots : List Value) (e : Expr) : NeverUnassigned (e.eval slots) := by
  cases e with
  | literal v => exact ok v
  | ident name => simp [eval, NeverUnassigned]
  | slot i name =>
      rw [eval]
      cases slots[i]? <;> simp [NeverUnassigned]
  | list es => exact (evalAll_neverUnassigned slots es).map _
  | unary op e => exact (eval_neverUnassigned slots e).bind op.apply_neverUnassigned
  | binary op l r =>
      have hr := eval_neverUnassigned slots r
      rw [eval]
      refine (eval_neverUnassigned slots l).bind fun a => ?_
      split
      · -- The right operand is looked at only if the left one does not decide.
        refine (truth_neverUnassigned _ a).bind fun b => ?_
        split
        · exact hr.bind fun v => (truth_neverUnassigned _ v).map _
        · exact ok _
      · refine (truth_neverUnassigned _ a).bind fun b => ?_
        split
        · exact ok _
        · exact hr.bind fun v => (truth_neverUnassigned _ v).map _
      · exact hr.bind fun v => BinaryOp.apply_neverUnassigned _ a v
  | call f args => exact (evalAll_neverUnassigned slots args).bind (Builtin.call_neverUnassigned f)
  | count xs item =>
      exact (eval_neverUnassigned slots item).bind fun v =>
        (eval_neverUnassigned slots xs).bind fun w => (items_neverUnassigned _ w).map _
theorem evalAll_neverUnassigned (slots : List Value) (es : List Expr) :
    NeverUnassigned (evalAll slots es) := by
  cases es with
  | nil => exact ok _
  | cons e es =>
      exact (eval_neverUnassigned slots e).bind fun v => (evalAll_neverUnassigned slots es).map _
end

end Expr

end FiniteDomain
