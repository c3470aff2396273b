import FiniteDomain.Expr.Basic

/-!
# Printed expressions

An operand stands in parentheses exactly when it binds less tightly than its place asks for. On the right of
an operator, and on both sides of a comparison, the place asks for the next tighter level: operators of one
level are read from the left, and comparisons side by side would be read as a chain.
-/

namespace FiniteDomain.Expr

/-- The characters, in parentheses if they are needed. -/
def enclose (needed : Bool) (cs : List Char) : List Char :=
  if needed then '(' :: (cs ++ [')']) else cs

/-- The least precedence that needs no parentheses on the left of `op`. -/
def leftPrecedence (op : BinaryOp) : Nat :=
  if op.isComparison then op.precedence + 1 else op.precedence

mutual
/-- The characters of the printed expression. -/
def chars : Expr → List Char
  | .literal v => v.chars
  | .ident name => name.toList
  | .slot _ name => name.toList
  | .list items => '[' :: (Text.commaSeparated (charsAll items) ++ [']'])
  | .unary .neg e => '-' :: enclose (e.precedence < negPrecedence) (chars e)
  | .unary .not e => "not ".toList ++ enclose (e.precedence < notPrecedence) (chars e)
  | .binary op l r =>
      enclose (l.precedence < leftPrecedence op) (chars l)
        ++ ' ' :: (op.symbol.toList
        ++ ' ' :: enclose (r.precedence < op.precedence + 1) (chars r))
  | .call f args => f.toList ++ '(' :: (Text.commaSeparated (charsAll args) ++ [')'])
  | .count xs item =>
      enclose (xs.precedence < atomPrecedence) (chars xs)
        ++ (".count(".toList ++ (chars item ++ [')']))
/-- The characters of each expression. -/
def charsAll : List Expr → List (List Char)
  | [] => []
  | e :: es => chars e :: charsAll es
end

theorem charsAll_eq_map (es : List Expr) : charsAll es = es.map chars := by
  induction es with
  | nil => simp [charsAll]
  | cons e es ih => simp [charsAll, ih]

/-- The printed expression. -/
def text (e : Expr) : String :=
  String.ofList e.chars

end FiniteDomain.Expr
