import Mathlib
import FiniteDomain.Expr.Evaluation

/-!
# Evaluation over unbounded integers

The same language with integers of any size: arithmetic never overflows, `/` rounds toward negative infinity and `%` is
what that quotient leaves of the dividend, a sum is the sum of its items, and lengths and counts are what they are.
Everything else is as for words: operands from left to right, connectives that leave their right operand alone, the item
of a count before its list, and the wording of the errors. A value of words stands for a value of integers
(`Value.exact`); different values stand for different ones (`Value.exact_inj`), and they are printed alike
(`Value.text_exact`).
-/

namespace FiniteDomain

/-- A value with integers of any size. -/
inductive ExactValue where
  | int (n : Int)
  | str (s : String)
  | bool (b : Bool)
  | list (items : List ExactValue)
  deriving Inhabited

namespace ExactValue

/-- A short name for the kind of value, for messages. -/
def kind : ExactValue → String
  | .int _ => "int"
  | .str _ => "str"
  | .bool _ => "bool"
  | .list _ => "list"

/-! ## Equality -/

mutual
/-- Whether two values are the same. -/
def beq : ExactValue → ExactValue → Bool
  | .int m, .int n => m = n
  | .str s, .str t => s = t
  | .bool a, .bool b => a = b
  | .list as, .list bs => beqAll as bs
  | _, _ => false
/-- Whether two lists hold the same values in the same order. -/
def beqAll : List ExactValue → List ExactValue → Bool
  | [], [] => true
  | a :: as, b :: bs => beq a b && beqAll as bs
  | _, _ => false
end

mutual
/-- The comparison decides equality of values. -/
theorem beq_iff_eq : ∀ a b : ExactValue, beq a b = true ↔ a = b
  | .int m, b => by cases b <;> simp [beq]
  | .str s, b => by cases b <;> simp [beq]
  | .bool x, b => by cases b <;> simp [beq]
  | .list as, b => by cases b <;> simp [beq, beqAll_iff_eq as]
/-- The comparison decides equality of lists of values. -/
theorem beqAll_iff_eq : ∀ as bs : List ExactValue, beqAll as bs = true ↔ as = bs
  | [], bs => by cases bs <;> simp [beqAll]
  | a :: as, bs => by cases bs <;> simp [beqAll, beq_iff_eq a, beqAll_iff_eq as]
end

instance : DecidableEq ExactValue := fun a b => decidable_of_iff _ (beq_iff_eq a b)

/-! ## Printed form -/

mutual
/-- The characters of the printed value. -/
def chars : ExactValue → List Char
  | .int n => Text.decimal n
  | .str s => Text.quoted s
  | .bool true => ['T', 'r', 'u', 'e']
  | .bool false => ['F', 'a', 'l', 's', 'e']
  | .list items => '[' :: (Text.commaSeparated (charsAll items) ++ [']'])
/-- The characters of each value. -/
def charsAll : List ExactValue → List (List Char)
  | [] => []
  | v :: vs => chars v :: charsAll vs
end

/-- The printed value. -/
def text (v : ExactValue) : String :=
  String.ofList v.chars

/-! ## Operands -/

/-- The error of applying `op` to a value that it is not defined on. -/
def invalid (op : String) (v : ExactValue) : EvalError :=
  .invalidOperand op (v.text ++ " (" ++ v.kind ++ ")")

/-- The integer operand of `op`. -/
def integer (op : String) : ExactValue → Except EvalError Int
  | .int n => .ok n
  | v => .error (v.invalid op)

/-- The boolean operand of `op`. -/
def truth (op : String) : ExactValue → Except EvalError Bool
  | .bool b => .ok b
  | v => .error (v.invalid op)

/-- The items of the list operand of `op`. -/
def items (op : String) : ExactValue → Except EvalError (List ExactValue)
  | .list vs => .ok vs
  | v => .error (v.invalid op)

/-- Arithmetic on two integer operands of `op`. -/
def arithmetic (op : String) (f : Int → Int → Int) (a b : ExactValue) : Except EvalError ExactValue := do
  let m ← integer op a
  let n ← integer op b
  return .int (f m n)

/-- Division, which fails for an integer zero before the operands are looked at. -/
def division (op : String) (f : Int → Int → Int) (a b : ExactValue) : Except EvalError ExactValue :=
  if b = .int 0 then .error .divisionByZero else arithmetic op f a b

/-- Addition of integers, or concatenation of two texts or two lists. -/
def addition (op : String) : ExactValue → ExactValue → Except EvalError ExactValue
  | .str a, .str b => .ok (.str (a ++ b))
  | .list as, .list bs => .ok (.list (as ++ bs))
  | a, b => arithmetic op (· + ·) a b

/-- The order of two integers or of two texts. If the left operand could be compared with something, the
right one is at fault. -/
def order (op : String) : ExactValue → ExactValue → Except EvalError Ordering
  | .int a, .int b => .ok (compare a b)
  | .str a, .str b => .ok (compare a b)
  | .int _, b => .error (b.invalid op)
  | .str _, b => .error (b.invalid op)
  | a, _ => .error (a.invalid op)

/-- Whether a value is an item of a list, or a text a part of a text. -/
def membership (op : String) : ExactValue → ExactValue → Except EvalError Bool
  | a, .list vs => .ok (vs.contains a)
  | .str a, .str b => .ok (a.toList <:+: b.toList)
  | _, b => .error (b.invalid op)

/-- The integers of a list of integer operands of `op`. -/
def integers (op : String) : List ExactValue → Except EvalError (List Int)
  | [] => .ok []
  | v :: vs => do
      let n ← integer op v
      return n :: (← integers op vs)

end ExactValue

open ExactValue

/-! ## Operators -/

/-- The value of an operator before its operand. -/
def UnaryOp.applyExact : UnaryOp → ExactValue → Except EvalError ExactValue
  | .not, v => do return .bool (!(← truth "not" v))
  | .neg, v => do return .int (-(← integer "-" v))

/-- The value of an operator between two values. -/
def BinaryOp.applyExact (op : BinaryOp) (a b : ExactValue) : Except EvalError ExactValue :=
  match op with
  | .eq => .ok (.bool (a = b))
  | .ne => .ok (.bool (a ≠ b))
  | .lt => do return .bool ((← order op.symbol a b) = .lt)
  | .gt => do return .bool ((← order op.symbol a b) = .gt)
  | .le => do return .bool ((← order op.symbol a b) ≠ .gt)
  | .ge => do return .bool ((← order op.symbol a b) ≠ .lt)
  | .mem => do return .bool (← membership op.symbol a b)
  | .notMem => do return .bool (!(← membership op.symbol a b))
  | .add => addition op.symbol a b
  | .sub => arithmetic op.symbol (· - ·) a b
  | .mul => arithmetic op.symbol (· * ·) a b
  | .div => division op.symbol Int.fdiv a b
  | .rem => division op.symbol (fun m n => m - n * m.fdiv n) a b
  | .and => do
      let x ← truth op.symbol a
      let y ← truth op.symbol b
      return .bool (x && y)
  | .or => do
      let x ← truth op.symbol a
      let y ← truth op.symbol b
      return .bool (x || y)

/-! ## Functions -/

namespace Builtin

/-- The only argument of a function. -/
def onlyExact (f : Builtin) : List ExactValue → Except EvalError ExactValue
  | [v] => .ok v
  | vs => .error (.wrongArgumentCount f.name "1" vs.length)

/-- The number of items of a list or of characters of a text. -/
def sizeExact : ExactValue → Except EvalError ExactValue
  | .list vs => .ok (.int vs.length)
  | .str s => .ok (.int s.length)
  | v => .error (v.invalid len.name)

/-- The extreme of `best` and the values, `side` being how a better value compares with the best so far. -/
def extremeFromExact (f : Builtin) (side : Ordering) (best : ExactValue) :
    List ExactValue → Except EvalError ExactValue
  | [] => .ok best
  | v :: vs => do
      let o ← order f.name v best
      extremeFromExact f side (if o = side then v else best) vs

/-- The extreme of the arguments, or of the items of an only argument. -/
def extremeExact (f : Builtin) (side : Ordering) (args : List ExactValue) : Except EvalError ExactValue := do
  let values ← match args with
    | [v] => items f.name v
    | vs => .ok vs
  match values with
  | [] => .error (.wrongArgumentCount f.name "at least 1" 0)
  | v :: vs => extremeFromExact f side v vs

/-- The value of a function. -/
def applyExact (f : Builtin) (args : List ExactValue) : Except EvalError ExactValue :=
  match f with
  | .abs => do
      let v ← onlyExact f args
      return .int (← integer f.name v).natAbs
  | .len => do sizeExact (← onlyExact f args)
  | .sum => do
      let v ← onlyExact f args
      let vs ← items f.name v
      return .int (← integers f.name vs).sum
  | .min => extremeExact f .lt args
  | .max => extremeExact f .gt args

/-- The value of a function called by name. -/
def callExact (function : String) (args : List ExactValue) : Except EvalError ExactValue :=
  match ofName? function with
  | some f => f.applyExact args
  | none => .error (.unknownFunction function)

end Builtin

/-! ## Values of words -/

namespace Value

mutual
/-- The value that a value of words stands for. -/
def exact : Value → ExactValue
  | .int n => .int n.toInt
  | .str s => .str s
  | .bool b => .bool b
  | .list vs => .list (exactAll vs)
/-- The values that values of words stand for. -/
def exactAll : List Value → List ExactValue
  | [] => []
  | v :: vs => exact v :: exactAll vs
end

theorem exactAll_eq_map (vs : List Value) : exactAll vs = vs.map exact := by
  induction vs with
  | nil => simp [exactAll]
  | cons v vs ih => simp [exactAll, ih]

mutual
/-- Different values of words stand for different values. -/
theorem exact_inj : ∀ v w : Value, v.exact = w.exact ↔ v = w
  | .int m, w => by cases w <;> simp [exact, Int64.toInt_inj]
  | .str s, w => by cases w <;> simp [exact]
  | .bool b, w => by cases w <;> simp [exact]
  | .list vs, w => by cases w <;> simp [exact, exactAll_inj vs]
theorem exactAll_inj : ∀ vs ws : List Value, exactAll vs = exactAll ws ↔ vs = ws
  | [], ws => by cases ws <;> simp [exactAll]
  | v :: vs, ws => by cases ws <;> simp [exactAll, exact_inj v, exactAll_inj vs]
end

mutual
theorem chars_exact : ∀ v : Value, v.exact.chars = v.chars
  | .int n => by simp [exact, chars, ExactValue.chars]
  | .str s => by simp [exact, chars, ExactValue.chars]
  | .bool b => by cases b <;> simp [exact, chars, ExactValue.chars]
  | .list vs => by simp [exact, chars, ExactValue.chars, charsAll_exactAll vs]
theorem charsAll_exactAll : ∀ vs : List Value, ExactValue.charsAll (exactAll vs) = charsAll vs
  | [] => by simp [exactAll, charsAll, ExactValue.charsAll]
  | v :: vs => by simp [exactAll, charsAll, ExactValue.charsAll, chars_exact v, charsAll_exactAll vs]
end

/-- A value of words is printed like the value that it stands for. -/
theorem text_exact (v : Value) : v.exact.text = v.text := by
  rw [ExactValue.text, chars_exact, text]

theorem kind_exact (v : Value) : v.exact.kind = v.kind := by
  cases v <;> simp [exact, kind, ExactValue.kind]

/-- A value of words that an operator is not defined on is reported like the value that it stands for. -/
theorem invalid_exact (op : String) (v : Value) : v.exact.invalid op = .ofOperand op v := by
  rw [ExactValue.invalid, text_exact, kind_exact, EvalError.ofOperand]

end Value

/-! ## Expressions -/

namespace Expr

mutual
/-- The value of an expression over unbounded integers, `slots` holding the values of the variables by position. -/
def evalExact (slots : List ExactValue) : Expr → Except EvalError ExactValue
  | .literal v => .ok v.exact
  | .ident name => .error (.unknownName name)
  | .slot i name =>
      match slots[i]? with
      | some v => .ok v
      | none => .error (.unknownName name)
  | .list es => do return .list (← evalAllExact slots es)
  | .unary op e => do op.applyExact (← evalExact slots e)
  | .binary op l r => do
      let a ← evalExact slots l
      match op with
      | .and =>
          if ← truth op.symbol a then return .bool (← truth op.symbol (← evalExact slots r))
          else return .bool false
      | .or =>
          if ← truth op.symbol a then return .bool true
          else return .bool (← truth op.symbol (← evalExact slots r))
      | op => op.applyExact a (← evalExact slots r)
  | .call f args => do Builtin.callExact f (← evalAllExact slots args)
  | .count xs item => do
      let v ← evalExact slots item
      let vs ← items "count" (← evalExact slots xs)
      return .int (vs.count v)
/-- The values of expressions from left to right. -/
def evalAllExact (slots : List ExactValue) : List Expr → Except EvalError (List ExactValue)
  | [] => .ok []
  | e :: es => do
      let v ← evalExact slots e
      return v :: (← evalAllExact slots es)
end

end Expr

end FiniteDomain
