import FiniteDomain.Expr.Basic

/-!
# Names in level order

The names in an expression, of variables and of functions alike, are listed level by level from the root and
from left to right within a level, each at its first occurrence. The order decides the order of a
constraint's variables, so three rules of the reading matter: the operands of a chain of one connective are
children of a single node, the name of a call is the first child of the call, and the list of a counting
expression lies one level below its item.

The walk keeps a queue of nodes; it ends because taking a node and adding its children lowers the total
weight of the queue (`weightAll_children_lt`).
-/

namespace FiniteDomain.Expr

/-- A node of the walk. -/
inductive Node where
  | expr (e : Expr)
  /-- The name of a called function. -/
  | name (s : String)
  /-- An expression that is read one level further down. -/
  | deferred (e : Expr)

/-- The operands of a chain of `op` nested to the left. -/
def operands (op : BinaryOp) : Expr → List Expr
  | .binary o l r => if o = op then operands op l ++ [r] else [.binary o l r]
  | e => [e]

/-- The nodes below an expression, from left to right. -/
def children : Expr → List Node
  | .list items => items.map .expr
  | .unary _ e => [.expr e]
  | .binary op l r =>
      if op.isLogical then (operands op l ++ [r]).map .expr else [.expr l, .expr r]
  | .call f args => .name f :: args.map .expr
  | .count xs item => [.deferred xs, .expr item]
  | .literal _ | .ident _ | .slot _ _ => []

namespace Node

/-- The name that a node shows, if it is one. -/
def name? : Node → Option String
  | .expr (.ident n) => some n
  | .expr (.slot _ n) => some n
  | .name n => some n
  | _ => none

/-- The nodes below a node. -/
def children : Node → List Node
  | .expr e => e.children
  | .name _ => []
  | .deferred e => [.expr e]

end Node

/-! ## Weights -/

mutual
/-- An upper bound on the nodes of the walk through an expression. -/
def weight : Expr → Nat
  | .literal _ => 1
  | .ident _ => 1
  | .slot _ _ => 1
  | .list items => 1 + weightAll items
  | .unary _ e => 1 + weight e
  | .binary _ l r => 1 + weight l + weight r
  | .call _ args => 2 + weightAll args
  | .count xs item => 2 + weight xs + weight item
/-- The weights of the expressions together. -/
def weightAll : List Expr → Nat
  | [] => 0
  | e :: es => weight e + weightAll es
end

/-- The weight of a node. -/
def Node.weight : Node → Nat
  | .expr e => e.weight
  | .name _ => 1
  | .deferred e => e.weight + 1

/-- The weights of the nodes together. -/
def Node.weightAll : List Node → Nat
  | [] => 0
  | n :: ns => n.weight + weightAll ns

theorem weightAll_append (as bs : List Expr) : weightAll (as ++ bs) = weightAll as + weightAll bs := by
  induction as with
  | nil => simp [weightAll]
  | cons a as ih => simp [weightAll, ih, Nat.add_assoc]

theorem Node.weightAll_map_expr (es : List Expr) :
    Node.weightAll (es.map Node.expr) = Expr.weightAll es := by
  induction es with
  | nil => simp [Node.weightAll, Expr.weightAll]
  | cons e es ih =>
      rw [List.map_cons, Node.weightAll, ih]
      rfl

/-- Flattening a chain keeps the weight within that of the chain. -/
theorem weightAll_operands_le (op : BinaryOp) (e : Expr) : weightAll (operands op e) ≤ weight e := by
  match e with
  | .binary o l r =>
      unfold operands
      split
      · have hl := weightAll_operands_le op l
        simp only [weightAll_append, weightAll, weight]
        omega
      · simp [weightAll]
  | .literal _ | .ident _ | .slot _ _ | .list _ | .unary _ _ | .call _ _ | .count _ _ =>
      simp [operands, weightAll]

/-- The nodes below an expression weigh less than the expression. -/
theorem weightAll_children_lt (e : Expr) : Node.weightAll e.children < e.weight := by
  match e with
  | .literal _ | .ident _ | .slot _ _ => simp [children, Node.weightAll, weight]
  | .list items => simp only [children, Node.weightAll_map_expr, weight]; omega
  | .unary _ e => simp [children, Node.weightAll, Node.weight, weight]
  | .binary op l r =>
      rw [children]
      split
      · have hl := weightAll_operands_le op l
        simp only [Node.weightAll_map_expr, weightAll_append, weightAll, weight]
        omega
      · simp [Node.weightAll, Node.weight, weight]
  | .call f args =>
      simp only [children, Node.weightAll, Node.weightAll_map_expr, Node.weight, weight]
      omega
  | .count xs item => simp [children, Node.weightAll, Node.weight, weight]; omega

/-- The nodes below a node weigh less than the node. -/
theorem Node.weightAll_children_lt (n : Node) : Node.weightAll n.children < n.weight := by
  match n with
  | .expr e => exact Expr.weightAll_children_lt e
  | .name _ => simp [Node.children, Node.weightAll, Node.weight]
  | .deferred e => simp [Node.children, Node.weightAll, Node.weight]

theorem Node.weightAll_append (as bs : List Node) :
    Node.weightAll (as ++ bs) = Node.weightAll as + Node.weightAll bs := by
  induction as with
  | nil => simp [Node.weightAll]
  | cons a as ih => simp [Node.weightAll, ih, Nat.add_assoc]

/-! ## The walk -/

/-- The names found by walking a queue of nodes. -/
def namesFrom : List Node → List String
  | [] => []
  | n :: queue => n.name?.toList ++ namesFrom (queue ++ n.children)
termination_by queue => Node.weightAll queue
decreasing_by
  have h := Node.weightAll_children_lt n
  simp only [Node.weightAll_append, Node.weightAll]
  omega

/-- The distinct names in an expression, in level order. -/
def names (e : Expr) : List String :=
  (namesFrom [.expr e]).eraseDups

end FiniteDomain.Expr
