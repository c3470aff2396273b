import FiniteDomain.Expr.Basic

/-!
# Binding names to positions

Binding gives every name in an expression the position that `resolve` finds for it and frees the names for
which it finds none, whatever the name was bound to before. The names of called functions are left alone.
-/

namespace FiniteDomain.Expr

/-- A name at the position found for it, or free. -/
def bindName (resolve : String → Option Nat) (name : String) : Expr :=
  match resolve name with
  | some i => .slot i name
  | none => .ident name

mutual
/-- The expression with every name bound by `resolve`. -/
def bind (resolve : String → Option Nat) : Expr → Expr
  | .literal v => .literal v
  | .ident name => bindName resolve name
  | .slot _ name => bindName resolve name
  | .list items => .list (bindAll resolve items)
  | .unary op e => .unary op (bind resolve e)
  | .binary op l r => .binary op (bind resolve l) (bind resolve r)
  | .call f args => .call f (bindAll resolve args)
  | .count xs item => .count (bind resolve xs) (bind resolve item)
/-- Each expression with every name bound by `resolve`. -/
def bindAll (resolve : String → Option Nat) : List Expr → List Expr
  | [] => []
  | e :: es => bind resolve e :: bindAll resolve es
end

theorem bindAll_eq_map (resolve : String → Option Nat) (es : List Expr) :
    bindAll resolve es = es.map (bind resolve) := by
  induction es with
  | nil => simp [bindAll]
  | cons e es ih => simp [bindAll, ih]

end FiniteDomain.Expr
