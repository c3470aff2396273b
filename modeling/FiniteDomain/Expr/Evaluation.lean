import FiniteDomain.Checked
import FiniteDomain.Expr.Basic
import FiniteDomain.Expr.EvalError

/-!
# Evaluation

The value of an expression under the values of its slots, or the first error met. Operands are evaluated from
left to right, with two exceptions: a connective leaves its right operand alone when the left one decides, and
counting evaluates the item before the list. Arithmetic is exact or fails with an overflow.
-/

namespace FiniteDomain

/-! ## Operands -/

namespace Operand

/-- The integer operand of `op`. -/
def integer (op : String) : Value → Except EvalError Int64
  | .int n => .ok n
  | v => .error (.ofOperand op v)

/-- The boolean operand of `op`. -/
def truth (op : String) : Value → Except EvalError Bool
  | .bool b => .ok b
  | v => .error (.ofOperand op v)

/-- The items of the list operand of `op`. -/
def items (op : String) : Value → Except EvalError (List Value)
  | .list vs => .ok vs
  | v => .error (.ofOperand op v)

/-- The result of checked arithmetic. -/
def word : Option Int64 → Except EvalError Value
  | some n => .ok (.int n)
  | none => .error .overflow

/-- Checked arithmetic on two integer operands of `op`. -/
def arithmetic (op : String) (f : Int64 → Int64 → Option Int64) (a b : Value) :
    Except EvalError Value := do
  let m ← integer op a
  let n ← integer op b
  word (f m n)

/-- Division, which fails for an integer zero before the operands are looked at. -/
def division (op : String) (f : Int64 → Int64 → Option Int64) (a b : Value) :
    Except EvalError Value :=
  if b = .int 0 then .error .divisionByZero else arithmetic op f a b

/-- Addition of integers, or concatenation of two texts or two lists. -/
def addition (op : String) : Value → Value → Except EvalError Value
  | .str a, .str b => .ok (.str (a ++ b))
  | .list as, .list bs => .ok (.list (as ++ bs))
  | a, b => arithmetic op Checked.add? a b

/-- The order of two integers or of two texts. If the left operand could be compared with something, the
right one is at fault. -/
def order (op : String) : Value → Value → Except EvalError Ordering
  | .int a, .int b => .ok (compare a b)
  | .str a, .str b => .ok (compare a b)
  | .int _, b => .error (.ofOperand op b)
  | .str _, b => .error (.ofOperand op b)
  | a, _ => .error (.ofOperand op a)

/-- Whether `needle` stands somewhere in a text. -/
def occursIn (needle : List Char) : List Char → Bool
  | [] => needle.isEmpty
  | c :: cs => needle.isPrefixOf (c :: cs) || occursIn needle cs

/-- It stands there with something before and something after it. -/
theorem occursIn_eq_true_iff {needle cs : List Char} : occursIn needle cs = true ↔ needle <:+: cs := by
  induction cs with
  | nil => rw [occursIn, List.isEmpty_iff, List.infix_nil]
  | cons c cs ih => rw [occursIn, Bool.or_eq_true, List.isPrefixOf_iff_prefix, ih, List.infix_cons_iff]

/-- Whether a value is an item of a list, or a text a part of a text. -/
def membership (op : String) : Value → Value → Except EvalError Bool
  | a, .list vs => .ok (vs.contains a)
  | .str a, .str b => .ok (occursIn a.toList b.toList)
  | _, b => .error (.ofOperand op b)

end Operand

open Operand

/-! ## Operators -/

/-- The value of an operator before its operand. -/
def UnaryOp.apply : UnaryOp → Value → Except EvalError Value
  | .not, v => do return .bool (!(← truth "not" v))
  | .neg, v => do word (Checked.neg? (← integer "-" v))

/-- The value of an operator between two values. -/
def BinaryOp.apply (op : BinaryOp) (a b : Value) : Except EvalError Value :=
  match op with
  | .eq => .ok (.bool (a = b))
  | .ne => .ok (.bool (a ≠ b))
  | .lt => do return .bool ((← order op.symbol a b) = .lt)
  | .gt => do return .bool ((← order op.symbol a b) = .gt)
  | .le => do return .bool ((← order op.symbol a b) ≠ .gt)
  | .ge => do return .bool ((← order op.symbol a b) ≠ .lt)
  | .mem => do return .bool (← membership op.symbol a b)
  | .notMem => do return .bool (!(← membership op.symbol a b))
  | .add => addition op.symbol a b
  | .sub => arithmetic op.symbol Checked.sub? a b
  | .mul => arithmetic op.symbol Checked.mul? a b
  | .div => division op.symbol Checked.floorDiv? a b
  | .rem => division op.symbol Checked.floorRem? a b
  | .and => do
      let x ← truth op.symbol a
      let y ← truth op.symbol b
      return .bool (x && y)
  | .or => do
      let x ← truth op.symbol a
      let y ← truth op.symbol b
      return .bool (x || y)

/-! ## Functions -/

/-- The functions that an expression can call. -/
inductive Builtin where
  | abs
  | len
  | sum
  | min
  | max
  deriving DecidableEq, Repr

namespace Builtin

/-- The name by which a function is called. -/
def name : Builtin → String
  | abs => "abs"
  | len => "len"
  | sum => "sum"
  | min => "min"
  | max => "max"

/-- The function with a name. -/
def ofName? (s : String) : Option Builtin :=
  [abs, len, sum, min, max].find? (·.name = s)

/-- The only argument of a function. -/
def onlyArgument (f : Builtin) : List Value → Except EvalError Value
  | [v] => .ok v
  | vs => .error (.wrongArgumentCount f.name "1" vs.length)

/-- The number of items of a list or of characters of a text. -/
def size : Value → Except EvalError Value
  | .list vs => .ok (.int (Int64.ofNat vs.length))
  | .str s => .ok (.int (Int64.ofNat s.length))
  | v => .error (.ofOperand len.name v)

/-- The sum of `total` and a list of integers, each partial sum being a word. -/
def sumFrom (total : Int64) : List Value → Except EvalError Value
  | [] => .ok (.int total)
  | v :: vs => do
      let n ← integer sum.name v
      match Checked.add? total n with
      | some next => sumFrom next vs
      | none => .error .overflow

/-- The extreme of `best` and the values, `side` being how a better value compares with the best so far. -/
def extremeFrom (f : Builtin) (side : Ordering) (best : Value) : List Value → Except EvalError Value
  | [] => .ok best
  | v :: vs => do
      let o ← order f.name v best
      extremeFrom f side (if o = side then v else best) vs

/-- The extreme of the arguments, or of the items of an only argument. -/
def extreme (f : Builtin) (side : Ordering) (args : List Value) : Except EvalError Value := do
  let values ← match args with
    | [v] => items f.name v
    | vs => .ok vs
  match values with
  | [] => .error (.wrongArgumentCount f.name "at least 1" 0)
  | v :: vs => extremeFrom f side v vs

/-- The value of a function. -/
def apply (f : Builtin) (args : List Value) : Except EvalError Value :=
  match f with
  | .abs => do
      let v ← onlyArgument f args
      word (Checked.abs? (← integer f.name v))
  | .len => do size (← onlyArgument f args)
  | .sum => do
      let v ← onlyArgument f args
      sumFrom 0 (← items f.name v)
  | .min => extreme f .lt args
  | .max => extreme f .gt args

/-- The value of a function called by name. -/
def call (function : String) (args : List Value) : Except EvalError Value :=
  match ofName? function with
  | some f => f.apply args
  | none => .error (.unknownFunction function)

end Builtin

/-! ## Expressions -/

namespace Expr

mutual
/-- The value of an expression, `slots` holding the values of the variables by position. -/
def eval (slots : List Value) : Expr → Except EvalError Value
  | .literal v => .ok v
  | .ident name => .error (.unknownName name)
  | .slot i name =>
      match slots[i]? with
      | some v => .ok v
      | none => .error (.unknownName name)
  | .list es => do return .list (← evalAll slots es)
  | .unary op e => do op.apply (← eval slots e)
  | .binary op l r => do
      let a ← eval slots l
      match op with
      | .and =>
          if ← truth op.symbol a then return .bool (← truth op.symbol (← eval slots r))
          else return .bool false
      | .or =>
          if ← truth op.symbol a then return .bool true
          else return .bool (← truth op.symbol (← eval slots r))
      | op => op.apply a (← eval slots r)
  | .call f args => do Builtin.call f (← evalAll slots args)
  | .count xs item => do
      let v ← eval slots item
      let vs ← items "count" (← eval slots xs)
      return .int (Int64.ofNat (vs.count v))
/-- The values of expressions from left to right. -/
def evalAll (slots : List Value) : List Expr → Except EvalError (List Value)
  | [] => .ok []
  | e :: es => do
      let v ← eval slots e
      return v :: (← evalAll slots es)
end

end Expr

end FiniteDomain
