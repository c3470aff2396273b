import FiniteDomain.Expr.Names
import FiniteDomain.Expr.Printer
import FiniteDomain.Proofs.Expr.Parts

/-!
# What binding keeps

Binding replaces names by names with positions and positions by others. It forgets what the names were bound to before
(`bind_bind`), and neither the names of the expression, in their order, nor the printed form shows it (`names_bind`,
`text_bind`). For the names the walk is followed: a bound queue has the bound children.
-/

namespace FiniteDomain.Expr

variable {resolve : String → Option Nat}

/-- Binding forgets what names were bound to. -/
theorem bind_bind (first second : String → Option Nat) (e : Expr) :
    bind second (bind first e) = bind second e := by
  induction e using inner_induction with
  | h e ih =>
      cases e with
      | literal v => rfl
      | ident name | slot _ name =>
          simp only [bind, bindName]
          cases first name <;> rfl
      | list items =>
          simp only [bind, bindAll_eq_map, List.map_map, list.injEq]
          exact List.map_congr_left ih
      | unary op e => simp only [bind, ih e (by simp [inner])]
      | binary op l r => simp only [bind, ih l (by simp [inner]), ih r (by simp [inner])]
      | call f args =>
          simp only [bind, bindAll_eq_map, List.map_map, call.injEq, true_and]
          exact List.map_congr_left ih
      | count xs item => simp only [bind, ih xs (by simp [inner]), ih item (by simp [inner])]

/-! ## Names in level order -/

/-- A chain is flattened to its bound operands. -/
theorem operands_bind (resolve : String → Option Nat) (op : BinaryOp) (e : Expr) :
    operands op (bind resolve e) = (operands op e).map (bind resolve) := by
  match e with
  | .binary o l r =>
      have ih := operands_bind resolve op l
      simp only [bind, operands]
      split
      · rw [ih, List.map_append]
        rfl
      · simp only [List.map_cons, List.map_nil, bind]
  | .ident name | .slot _ name =>
      simp only [bind, bindName, operands, List.map_cons, List.map_nil]
      cases resolve name <;> rfl
  | .literal _ | .list _ | .unary _ _ | .call _ _ | .count _ _ =>
      simp only [bind, operands, List.map_cons, List.map_nil]

/-- The node with its expression bound. -/
def Node.bind (resolve : String → Option Nat) : Node → Node
  | .expr e => .expr (e.bind resolve)
  | .name s => .name s
  | .deferred e => .deferred (e.bind resolve)

theorem Node.map_bind_map_expr (es : List Expr) :
    (es.map Node.expr).map (Node.bind resolve) = (es.map (Expr.bind resolve)).map Node.expr := by
  simp [Node.bind]

/-- The nodes below a bound expression are the nodes below the expression, bound. -/
theorem children_bind (e : Expr) :
    (bind resolve e).children = e.children.map (Node.bind resolve) := by
  cases e with
  | ident name | slot _ name =>
      simp only [bind, bindName, children, List.map_nil]
      cases resolve name <;> rfl
  | literal v => rfl
  | list items => simp only [bind, children, bindAll_eq_map, Node.map_bind_map_expr]
  | unary op e => rfl
  | binary op l r =>
      simp only [bind, children]
      split
      · rw [operands_bind, Node.map_bind_map_expr]
        simp only [List.map_append, List.map_cons, List.map_nil]
      · rfl
  | call f args =>
      simp only [bind, children, bindAll_eq_map, List.map_cons, Node.map_bind_map_expr]
      rfl
  | count xs item => rfl

theorem Node.children_bind (n : Node) :
    (n.bind resolve).children = n.children.map (Node.bind resolve) := by
  cases n with
  | expr e => exact Expr.children_bind e
  | name s => rfl
  | deferred e => rfl

theorem Node.name?_bind (n : Node) : (n.bind resolve).name? = n.name? := by
  cases n with
  | expr e =>
      cases e with
      | ident name | slot _ name =>
          simp only [Node.bind, Expr.bind, bindName]
          cases resolve name <;> rfl
      | literal _ | list _ | unary _ _ | binary _ _ _ | call _ _ | count _ _ => rfl
  | name s => rfl
  | deferred e => rfl

/-- The walk finds the same names in a bound queue. -/
theorem namesFrom_bind (queue : List Node) : namesFrom (queue.map (Node.bind resolve)) = namesFrom queue := by
  fun_induction namesFrom queue with
  | case1 => rw [List.map_nil, namesFrom]
  | case2 n queue ih =>
      rw [List.map_cons, namesFrom, Node.name?_bind, Node.children_bind, ← List.map_append, ih]

/-- Binding keeps the names and their order. -/
theorem names_bind (e : Expr) : (bind resolve e).names = e.names := by
  have hwalk : namesFrom ([.expr e].map (Node.bind resolve)) = namesFrom [.expr e] := namesFrom_bind [.expr e]
  rw [List.map_singleton] at hwalk
  rw [names, names, ← hwalk]
  rfl

/-! ## The printed form -/

/-- Binding changes no operator. -/
theorem precedence_bind (e : Expr) : (bind resolve e).precedence = e.precedence := by
  cases e with
  | ident name | slot _ name =>
      simp only [bind, bindName]
      cases resolve name <;> rfl
  | unary op e => cases op <;> rfl
  | literal _ | list _ | binary _ _ _ | call _ _ | count _ _ => rfl

theorem chars_bind (e : Expr) : (bind resolve e).chars = e.chars := by
  induction e using inner_induction with
  | h e ih =>
      cases e with
      | literal v => rfl
      | ident name | slot _ name =>
          simp only [bind, bindName]
          cases resolve name <;> simp only [chars]
      | list items =>
          have hitems : items.map (chars ∘ bind resolve) = items.map chars := List.map_congr_left ih
          simp only [bind, chars, bindAll_eq_map, charsAll_eq_map, List.map_map, hitems]
      | unary op e =>
          cases op <;> simp only [bind, chars, precedence_bind, ih e (by simp [inner])]
      | binary op l r =>
          simp only [bind, chars, precedence_bind, ih l (by simp [inner]), ih r (by simp [inner])]
      | call f args =>
          have hargs : args.map (chars ∘ bind resolve) = args.map chars := List.map_congr_left ih
          simp only [bind, chars, bindAll_eq_map, charsAll_eq_map, List.map_map, hargs]
      | count xs item =>
          simp only [bind, chars, precedence_bind, ih xs (by simp [inner]), ih item (by simp [inner])]

/-- Binding does not show in the printed form. -/
theorem text_bind (e : Expr) : (bind resolve e).text = e.text := by
  rw [text, text, chars_bind]

end FiniteDomain.Expr
