import FiniteDomain.Proofs.Expr.Occurrence
import FiniteDomain.Proofs.FirstOccurrences

/-!
# Names level by level

Level order, said by recursion on the expression: `levels` lists the names on each level, the root's first, and the
levels of expressions side by side are put together (`beside`). The walk that finds the names in this order keeps a
single queue of nodes. At any time the queue holds what is left of one level and behind it what has been found of the
next; `namesFrom_append` says what the walk makes of such a queue, and from it the names of an expression are those on
its levels, each at its first occurrence (`names_eq_eraseDups_levels`).
-/

namespace FiniteDomain.Expr

/-! ## Levels side by side -/

/-- The levels of two things side by side. -/
def beside {α : Type} : List (List α) → List (List α) → List (List α)
  | [], bs => bs
  | as, [] => as
  | a :: as, b :: bs => (a ++ b) :: beside as bs

section Beside

variable {α : Type}

@[simp] theorem nil_beside (bs : List (List α)) : beside [] bs = bs := by
  rw [beside]

@[simp] theorem beside_nil (as : List (List α)) : beside as [] = as := by
  cases as <;> rfl

@[simp] theorem cons_beside_cons (a b : List α) (as bs : List (List α)) :
    beside (a :: as) (b :: bs) = (a ++ b) :: beside as bs := by
  rw [beside]

theorem beside_assoc (as bs cs : List (List α)) : beside (beside as bs) cs = beside as (beside bs cs) := by
  induction as generalizing bs cs with
  | nil => rw [nil_beside, nil_beside]
  | cons a as ih =>
      cases bs with
      | nil => rw [beside_nil, nil_beside]
      | cons b bs =>
          cases cs with
          | nil => rw [beside_nil, beside_nil]
          | cons c cs => simp only [cons_beside_cons, ih, List.append_assoc]

/-- What is on the first level on the left comes first. -/
theorem flatten_cons_beside (a : List α) (as bs : List (List α)) :
    (beside (a :: as) bs).flatten = a ++ (beside ([] :: as) bs).flatten := by
  cases bs with
  | nil => simp
  | cons b bs => simp

end Beside

/-! ## The levels of an expression -/

/-- Whether an expression goes on with a chain of a connective that it is the left operand of. -/
def goesOn : BinaryOp → Expr → Bool
  | .and, .binary .and _ _ => true
  | .or, .binary .or _ _ => true
  | _, _ => false

mutual
/-- The names on the levels of an expression, from the root down. The operands of a chain of one connective that is
nested to the left are all on the level below it, the name of a call is the first thing below the call, and the list of
a counting expression is one level below its item. -/
def levels : Expr → List (List String)
  | .literal _ => [[]]
  | .ident name => [[name]]
  | .slot _ name => [[name]]
  | .list items => [] :: levelsAll items
  | .unary _ e => [] :: levels e
  | .binary op l r => [] :: beside (if goesOn op l then (levels l).tail else levels l) (levels r)
  | .call f args => [] :: beside [[f]] (levelsAll args)
  | .count xs item => [] :: beside ([] :: levels xs) (levels item)
/-- The names on the levels of expressions side by side. -/
def levelsAll : List Expr → List (List String)
  | [] => []
  | e :: es => beside (levels e) (levelsAll es)
end

theorem levelsAll_append (as bs : List Expr) : levelsAll (as ++ bs) = beside (levelsAll as) (levelsAll bs) := by
  induction as with
  | nil => rw [List.nil_append, levelsAll, nil_beside]
  | cons a as ih => rw [List.cons_append, levelsAll, levelsAll, ih, beside_assoc]

theorem levelsAll_singleton (e : Expr) : levelsAll [e] = levels e := by
  rw [levelsAll, levelsAll, beside_nil]

/-- A connective goes on with its own chains. -/
theorem goesOn_self {op : BinaryOp} (hop : op.isLogical = true) (l r : Expr) : goesOn op (.binary op l r) = true := by
  cases op <;> first | rfl | cases hop

theorem goesOn_of_ne {op o : BinaryOp} (h : o ≠ op) (l r : Expr) : goesOn op (.binary o l r) = false := by
  unfold goesOn
  split
  · next heq => exact absurd (Expr.binary.inj heq).1 h
  · next heq => exact absurd (Expr.binary.inj heq).1 h
  · rfl

/-- No other operator goes on with anything. -/
theorem goesOn_of_not_isLogical {op : BinaryOp} (hop : op.isLogical = false) (e : Expr) : goesOn op e = false := by
  unfold goesOn
  split
  · cases hop
  · cases hop
  · rfl

/-- The operands that a chain is flattened to are those on the level below it. -/
theorem levelsAll_operands {op : BinaryOp} (hop : op.isLogical = true) (e : Expr) :
    levelsAll (operands op e) = if goesOn op e then (levels e).tail else levels e := by
  match e with
  | .binary o l r =>
      have ih := levelsAll_operands hop l
      by_cases ho : o = op
      · subst ho
        rw [operands, if_pos rfl, levelsAll_append, levelsAll_singleton, ih, goesOn_self hop, if_pos rfl, levels]
        rfl
      · rw [operands, if_neg ho, levelsAll_singleton, goesOn_of_ne ho, if_neg Bool.false_ne_true]
  | .literal _ | .ident _ | .slot _ _ | .list _ | .unary _ _ | .call _ _ | .count _ _ =>
      simp [operands, goesOn, levelsAll_singleton]

/-! ## The levels of a queue -/

namespace Node

/-- The names on the levels of a node. -/
def levels : Node → List (List String)
  | .expr e => e.levels
  | .name s => [[s]]
  | .deferred e => [] :: e.levels

/-- The names on the levels of nodes side by side. -/
def levelsAll : List Node → List (List String)
  | [] => []
  | n :: ns => beside n.levels (levelsAll ns)

theorem levelsAll_append (as bs : List Node) : levelsAll (as ++ bs) = beside (levelsAll as) (levelsAll bs) := by
  induction as with
  | nil => rw [List.nil_append, levelsAll, nil_beside]
  | cons a as ih => rw [List.cons_append, levelsAll, levelsAll, ih, beside_assoc]

theorem levelsAll_map_expr (es : List Expr) : levelsAll (es.map .expr) = Expr.levelsAll es := by
  induction es with
  | nil => rw [List.map_nil, levelsAll, Expr.levelsAll]
  | cons e es ih => rw [List.map_cons, levelsAll, Expr.levelsAll, ih, levels]

theorem levelsAll_singleton (n : Node) : levelsAll [n] = n.levels := by
  rw [levelsAll, levelsAll, beside_nil]

/-- A node shows its name, and the nodes below it are on the levels below. -/
theorem levels_eq (n : Node) : n.levels = n.name?.toList :: levelsAll n.children := by
  cases n with
  | name s => rfl
  | deferred e =>
      rw [children, levelsAll_singleton]
      rfl
  | expr e =>
      cases e with
      | literal v | ident name | slot i name => rfl
      | list items =>
          rw [children, Expr.children, levelsAll_map_expr]
          rfl
      | unary op e =>
          rw [children, Expr.children, levelsAll_singleton]
          rfl
      | binary op l r =>
          rw [children, Expr.children, levels, Expr.levels]
          cases hop : op.isLogical with
          | true =>
              rw [if_pos rfl, levelsAll_map_expr, Expr.levelsAll_append, Expr.levelsAll_singleton,
                levelsAll_operands hop]
              rfl
          | false =>
              -- Operands of other operators are two siblings, whatever they are.
              rw [goesOn_of_not_isLogical hop, if_neg Bool.false_ne_true, if_neg Bool.false_ne_true, levelsAll,
                levelsAll_singleton]
              rfl
      | call f args =>
          rw [children, Expr.children, levelsAll, levelsAll_map_expr]
          rfl
      | count xs item =>
          rw [children, Expr.children, levelsAll, levelsAll_singleton]
          rfl

end Node

/-! ## The walk -/

/-- The names found by walking what is left of one level and, behind it, what has been found of the next. -/
theorem namesFrom_append (level next : List Node) :
    namesFrom (level ++ next) = (beside ([] :: Node.levelsAll next) (Node.levelsAll level)).flatten := by
  generalize hqueue : level ++ next = queue
  fun_induction namesFrom queue generalizing level next with
  | case1 =>
      obtain ⟨rfl, rfl⟩ := List.append_eq_nil_iff.mp hqueue
      rfl
  | case2 n queue ih =>
      cases level with
      | nil =>
          -- The level is finished, and what has been found of the next one is all of it.
          obtain rfl : next = n :: queue := hqueue
          rw [ih queue n.children rfl, Node.levelsAll, Node.levelsAll, Node.levels_eq, beside_nil, List.flatten_cons,
            flatten_cons_beside n.name?.toList]
          rfl
      | cons m level =>
          obtain ⟨rfl, rfl⟩ := List.cons.inj hqueue
          rw [ih level (next ++ m.children) (List.append_assoc ..).symm, Node.levelsAll_append, Node.levelsAll,
            Node.levels_eq, ← beside_assoc, cons_beside_cons, List.nil_append, flatten_cons_beside m.name?.toList]

/-- The walk through an expression finds the names on its levels. -/
theorem namesFrom_singleton (e : Expr) : namesFrom [.expr e] = e.levels.flatten := by
  have hwalk := namesFrom_append [] [.expr e]
  rwa [List.nil_append, Node.levelsAll_singleton, Node.levelsAll, beside_nil, List.flatten_cons,
    List.nil_append] at hwalk

/-- The names of an expression, of variables and of called functions, are those on its levels, from the root down and
from left to right on each level, without repetition and in the order in which they first come; they are all the names
in the expression. -/
theorem names_eq_eraseDups_levels (e : Expr) :
    e.names = e.levels.flatten.eraseDups ∧ e.names.Nodup ∧
      (e.names.Pairwise fun s t => e.levels.flatten.idxOf s < e.levels.flatten.idxOf t) ∧
      ∀ s, s ∈ e.names ↔ e.Mentions s := by
  have hnames : e.names = e.levels.flatten.eraseDups := by
    rw [names, namesFrom_singleton]
  refine ⟨hnames, ?_, ?_, fun s => mem_names_iff⟩
  · rw [hnames]
    exact nodup_eraseDups _
  · rw [hnames]
    exact pairwise_idxOf_eraseDups _

/-- `[A, B].count(C) == D and (abs(E) or F) and G`: the connective `or` starts a node of its own, and the list that is
counted in comes last. -/
example : levels (.binary .and (.binary .and
      (.binary .eq (.count (.list [.ident "A", .ident "B"]) (.ident "C")) (.ident "D"))
      (.binary .or (.call "abs" [.ident "E"]) (.ident "F"))) (.ident "G"))
    = [[], ["G"], ["D", "F"], ["C", "abs", "E"], [], ["A", "B"]] := by
  decide

end FiniteDomain.Expr
