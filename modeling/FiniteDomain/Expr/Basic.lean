import FiniteDomain.Value

/-!
# Expressions

The predicate language of constraints: a closed language of literals, names, lists, operators, calls of
builtin functions and the counting of list items. A name that stands for a variable is a *slot*, which
carries its position among the variables of the constraint beside the name.

Each operator has a precedence. The printer encloses an operand in parentheses by comparing precedences,
and the grammar has one level for each of them.
-/

namespace FiniteDomain

/-- Operators before their operand. -/
inductive UnaryOp where
  | neg
  | not
  deriving DecidableEq, Repr

/-- Operators between their operands. -/
inductive BinaryOp where
  | or
  | and
  | eq
  | ne
  | lt
  | gt
  | le
  | ge
  | mem
  | notMem
  | add
  | sub
  | mul
  | div
  | rem
  deriving DecidableEq, Repr

namespace BinaryOp

/-- The operator as it is written. -/
def symbol : BinaryOp → String
  | or => "or"
  | and => "and"
  | eq => "=="
  | ne => "!="
  | lt => "<"
  | gt => ">"
  | le => "<="
  | ge => ">="
  | mem => "in"
  | notMem => "not in"
  | add => "+"
  | sub => "-"
  | mul => "*"
  | div => "/"
  | rem => "%"

/-- How tightly the operator binds; a larger number binds tighter. -/
def precedence : BinaryOp → Nat
  | or => 1
  | and => 2
  | eq | ne | lt | gt | le | ge | mem | notMem => 4
  | add | sub => 5
  | mul | div | rem => 6

/-- Comparisons share one level, on which they chain. -/
def isComparison (op : BinaryOp) : Bool :=
  op.precedence = 4

/-- The connectives, whose second operand may be left unevaluated. -/
def isLogical : BinaryOp → Bool
  | or | and => true
  | _ => false

end BinaryOp

/-- An expression. -/
inductive Expr where
  /-- A constant. -/
  | literal (value : Value)
  /-- A name that stands for no variable. -/
  | ident (name : String)
  /-- The value of the variable at a position. -/
  | slot (index : Nat) (name : String)
  /-- A list of expressions. -/
  | list (items : List Expr)
  | unary (op : UnaryOp) (operand : Expr)
  | binary (op : BinaryOp) (left right : Expr)
  /-- A call of a builtin function. -/
  | call (function : String) (args : List Expr)
  /-- How often the value of `item` occurs in the value of `list`. -/
  | count (list item : Expr)
  deriving Inhabited

namespace Expr

/-- The integer constant `n`. -/
def int (n : Int64) : Expr :=
  .literal (.int n)

/-- The precedence of the operator `not`. -/
def notPrecedence : Nat := 3

/-- The precedence of the minus sign. -/
def negPrecedence : Nat := 7

/-- The precedence of what needs no parentheses anywhere. -/
def atomPrecedence : Nat := 8

/-- How tightly the outermost operator binds. -/
def precedence : Expr → Nat
  | .binary op _ _ => op.precedence
  | .unary .not _ => notPrecedence
  | .unary .neg _ => negPrecedence
  | _ => atomPrecedence

/-! ## Equality -/

mutual
/-- Whether two expressions are the same. -/
def beq : Expr → Expr → Bool
  | .literal v, .literal w => v = w
  | .ident a, .ident b => a = b
  | .slot i a, .slot j b => i = j && a = b
  | .list as, .list bs => beqAll as bs
  | .unary o a, .unary p b => o = p && beq a b
  | .binary o a b, .binary p c d => o = p && (beq a c && beq b d)
  | .call f as, .call g bs => f = g && beqAll as bs
  | .count a b, .count c d => beq a c && beq b d
  | _, _ => false
/-- Whether two lists hold the same expressions in the same order. -/
def beqAll : List Expr → List Expr → Bool
  | [], [] => true
  | a :: as, b :: bs => beq a b && beqAll as bs
  | _, _ => false
end

mutual
/-- The comparison decides equality of expressions. -/
theorem beq_iff_eq : ∀ a b : Expr, beq a b = true ↔ a = b
  | .literal v, b => by cases b <;> simp [beq]
  | .ident n, b => by cases b <;> simp [beq]
  | .slot i n, b => by cases b <;> simp [beq]
  | .list as, b => by cases b <;> simp [beq, beqAll_iff_eq as]
  | .unary o a, b => by cases b <;> simp [beq, beq_iff_eq a]
  | .binary o l r, b => by cases b <;> simp [beq, beq_iff_eq l, beq_iff_eq r]
  | .call f as, b => by cases b <;> simp [beq, beqAll_iff_eq as]
  | .count l i, b => by cases b <;> simp [beq, beq_iff_eq l, beq_iff_eq i]
/-- The comparison decides equality of lists of expressions. -/
theorem beqAll_iff_eq : ∀ as bs : List Expr, beqAll as bs = true ↔ as = bs
  | [], bs => by cases bs <;> simp [beqAll]
  | a :: as, bs => by cases bs <;> simp [beqAll, beq_iff_eq a, beqAll_iff_eq as]
end

instance : DecidableEq Expr := fun a b => decidable_of_iff _ (beq_iff_eq a b)

end Expr

end FiniteDomain
