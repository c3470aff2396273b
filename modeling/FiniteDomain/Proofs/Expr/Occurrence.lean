import FiniteDomain.Expr.Names

/-!
# The names in an expression

The walk through an expression, level by level, finds every name in it, of variables and of called functions, and no
other (`mem_names_iff`). The walk keeps a queue, so the induction is on the queue: what its nodes mention is what
they show themselves or what the nodes below them mention.
-/

namespace FiniteDomain.Expr

variable {s : String}

mutual
/-- The name `s` stands in the expression, for a variable or for a called function. -/
def Mentions (s : String) : Expr → Prop
  | .literal _ => False
  | .ident name => name = s
  | .slot _ name => name = s
  | .list items => MentionsAny s items
  | .unary _ e => Mentions s e
  | .binary _ l r => Mentions s l ∨ Mentions s r
  | .call f args => f = s ∨ MentionsAny s args
  | .count xs item => Mentions s xs ∨ Mentions s item
/-- The name `s` stands in one of the expressions. -/
def MentionsAny (s : String) : List Expr → Prop
  | [] => False
  | e :: es => Mentions s e ∨ MentionsAny s es
end

theorem mentionsAny_iff {es : List Expr} : MentionsAny s es ↔ ∃ e ∈ es, e.Mentions s := by
  induction es with
  | nil => simp [MentionsAny]
  | cons e es ih => simp [MentionsAny, ih]

/-- Flattening a chain of one connective loses no name and adds none. -/
theorem mentions_operands (op : BinaryOp) (e : Expr) :
    (∃ o ∈ operands op e, o.Mentions s) ↔ e.Mentions s := by
  match e with
  | .binary o l r =>
      have ih := mentions_operands op l
      unfold operands
      split
      · simp only [List.mem_append, List.mem_singleton, or_and_right, exists_or, exists_eq_left,
          ih, Mentions]
      · simp
  | .literal _ | .ident _ | .slot _ _ | .list _ | .unary _ _ | .call _ _ | .count _ _ =>
      simp [operands]

namespace Node

/-- The name `s` is the node's own or stands below it. -/
def Mentions (s : String) : Node → Prop
  | .expr e => e.Mentions s
  | .name n => n = s
  | .deferred e => e.Mentions s

theorem mentions_map_expr {es : List Expr} :
    (∃ n ∈ es.map Node.expr, n.Mentions s) ↔ ∃ e ∈ es, e.Mentions s := by
  constructor
  · rintro ⟨n, hn, hs⟩
    obtain ⟨e, he, rfl⟩ := List.mem_map.mp hn
    exact ⟨e, he, hs⟩
  · rintro ⟨e, he, hs⟩
    exact ⟨.expr e, List.mem_map_of_mem he, hs⟩

/-- What a node mentions it shows itself, or a node below it mentions it. -/
theorem mentions_iff (n : Node) :
    n.Mentions s ↔ n.name? = some s ∨ ∃ m ∈ n.children, m.Mentions s := by
  cases n with
  | name f => simp [Mentions, name?, children]
  | deferred e => simp [Mentions, name?, children]
  | expr e =>
      cases e with
      | literal v => simp [Mentions, Expr.Mentions, name?, children, Expr.children]
      | ident name => simp [Mentions, Expr.Mentions, name?, children, Expr.children]
      | slot i name => simp [Mentions, Expr.Mentions, name?, children, Expr.children]
      | list items =>
          simp only [children, Expr.children, mentions_map_expr, ← mentionsAny_iff]
          simp [Mentions, Expr.Mentions, name?]
      | unary op e => simp [Mentions, Expr.Mentions, name?, children, Expr.children]
      | binary op l r =>
          simp only [children, Expr.children]
          split
          · simp only [mentions_map_expr, List.mem_append, List.mem_singleton, or_and_right,
              exists_or, exists_eq_left, mentions_operands]
            simp [Mentions, Expr.Mentions, name?]
          · simp [Mentions, Expr.Mentions, name?]
      | call f args =>
          simp only [children, Expr.children, List.mem_cons, or_and_right, exists_or, exists_eq_left,
            mentions_map_expr, ← mentionsAny_iff]
          simp [Mentions, Expr.Mentions, name?]
      | count xs item => simp [Mentions, Expr.Mentions, name?, children, Expr.children]

end Node

/-- The walk finds what the nodes of its queue mention. -/
theorem mem_namesFrom_iff (queue : List Node) :
    s ∈ namesFrom queue ↔ ∃ n ∈ queue, n.Mentions s := by
  fun_induction namesFrom queue with
  | case1 => simp
  | case2 n queue ih =>
      simp only [List.mem_append, Option.mem_toList, ih, List.mem_cons, or_and_right,
        exists_or, exists_eq_left, n.mentions_iff, or_assoc]
      exact or_congr_right or_comm

/-- The names of an expression are those that it mentions. -/
theorem mem_names_iff {e : Expr} : s ∈ e.names ↔ e.Mentions s := by
  rw [names, List.mem_eraseDups, mem_namesFrom_iff]
  simp [Node.Mentions]

end FiniteDomain.Expr
