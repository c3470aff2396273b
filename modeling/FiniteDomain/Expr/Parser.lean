import FiniteDomain.Expr.Basic
import FiniteDomain.Token.Lexer
import FiniteDomain.Token.Reader

/-!
# Reading expressions

One function for each level of the grammar, from the loosest to the tightest: disjunction, conjunction,
negation, comparison, sum, product, sign, counting, atom. Operators of one level are grouped from the left,
adjacent comparisons are joined by `and`, and the minus sign before an integer literal becomes part of it.

Every level takes the reader of whole expressions as an argument, for what stands between brackets.
`exprWithin n` ties the knot for texts of at most `n` tokens. A bracket has to be read before the next whole
expression is, so the number of tokens is enough; a text without tokens, which is all that a spent bound can
meet, ends too early.
-/

namespace FiniteDomain.Expr

/-! ## Operators of each level -/

/-- The operator of a disjunction. -/
def orOp? : Token → Option BinaryOp
  | .keyword .or => some .or
  | _ => none

/-- The operator of a conjunction. -/
def andOp? : Token → Option BinaryOp
  | .keyword .and => some .and
  | _ => none

/-- The operators of a sum. -/
def sumOp? : Token → Option BinaryOp
  | .symbol .plus => some .add
  | .symbol .minus => some .sub
  | _ => none

/-- The operators of a product. -/
def productOp? : Token → Option BinaryOp
  | .symbol .star => some .mul
  | .symbol .slash => some .div
  | .symbol .percent => some .rem
  | _ => none

/-- The comparisons of one token. -/
def comparisonOp? : Token → Option BinaryOp
  | .symbol .eqEq => some .eq
  | .symbol .notEq => some .ne
  | .symbol .lt => some .lt
  | .symbol .gt => some .gt
  | .symbol .le => some .le
  | .symbol .ge => some .ge
  | .keyword .mem => some .mem
  | _ => none

/-- The comparison at the front of the tokens, of one token or `not in`, and the tokens after it. -/
def comparisonAt? : List Located → Option (BinaryOp × List Located)
  | [] => none
  | t :: ts =>
      match comparisonOp? t.token with
      | some op => some (op, ts)
      | none =>
          match ts with
          | [] => none
          | u :: us =>
              if t.token = .keyword .not ∧ u.token = .keyword .mem then some (.notMem, us) else none

/-! ## Repetition -/

/-- Further operands of one level after `left`, at most as many as the bound. -/
def chainFrom (operand : Reader Expr) (op? : Token → Option BinaryOp) : Nat → Expr → Reader Expr
  | 0, left, ts => .ok (left, ts)
  | _ + 1, left, [] => .ok (left, [])
  | n + 1, left, t :: ts =>
      match op? t.token with
      | none => .ok (left, t :: ts)
      | some op => do
          let (right, rest) ← operand ts
          chainFrom operand op? n (.binary op left right) rest

/-- Operands of one level, grouped from the left. -/
def chain (operand : Reader Expr) (op? : Token → Option BinaryOp) : Reader Expr := fun ts => do
  let (first, rest) ← operand ts
  chainFrom operand op? rest.length first rest

/-- A comparison joined to those before it. -/
def joinComparison (before : Option Expr) (comparison : Expr) : Expr :=
  match before with
  | some e => .binary .and e comparison
  | none => comparison

/-- Further comparisons after the operand `left`; `before` is what the comparisons so far amount to. -/
def comparisonsFrom (operand : Reader Expr) : Nat → Option Expr → Expr → Reader Expr
  | 0, before, left, ts => .ok (before.getD left, ts)
  | n + 1, before, left, ts =>
      match comparisonAt? ts with
      | none => .ok (before.getD left, ts)
      | some (op, ts') => do
          let (right, rest) ← operand ts'
          comparisonsFrom operand n (some (joinComparison before (.binary op left right))) right rest

/-- Expressions separated by commas up to the token `close`; the last one may have a comma after it too. -/
def itemsUpTo (self : Reader Expr) (close : Token) : Nat → Reader (List Expr)
  | 0, _ => .error .unexpectedEnd
  | _ + 1, [] => .error .unexpectedEnd
  | n + 1, t :: ts =>
      if t.token = close then .ok ([], ts)
      else do
        let (item, rest) ← self (t :: ts)
        match rest with
        | [] => .error .unexpectedEnd
        | u :: us =>
            if u.token = .symbol .comma then do
              let (items, after) ← itemsUpTo self close n us
              return (item :: items, after)
            else if u.token = close then .ok ([item], us)
            else .error u.unexpected

/-- The items between an opening bracket, which is read already, and `close`. -/
def itemsThen (self : Reader Expr) (close : Token) : Reader (List Expr) := fun ts =>
  itemsUpTo self close ts.length ts

/-! ## Levels -/

/-- A name, or a call if an opening parenthesis follows the name. -/
def nameOrCall (self : Reader Expr) (name : String) : Reader Expr
  | [] => .ok (.ident name, [])
  | t :: ts =>
      if t.token = .symbol .openParen then do
        let (args, rest) ← itemsThen self (.symbol .closeParen) ts
        return (.call name args, rest)
      else .ok (.ident name, t :: ts)

/-- A literal, a name, a call, a list, or an expression in parentheses. -/
def atom (self : Reader Expr) : Reader Expr
  | [] => .error .unexpectedEnd
  | t :: ts =>
      match t.token with
      | .int n => .ok (.int n, ts)
      | .str s => .ok (.literal (.str s), ts)
      | .keyword .trueValue => .ok (.literal (.bool true), ts)
      | .keyword .falseValue => .ok (.literal (.bool false), ts)
      | .ident name => nameOrCall self name ts
      | .symbol .openBracket => do
          let (items, rest) ← itemsThen self (.symbol .closeBracket) ts
          return (.list items, rest)
      | .symbol .openParen => do
          let (e, rest) ← self ts
          let rest ← Token.expect (.symbol .closeParen) rest
          return (e, rest)
      | _ => .error t.unexpected

/-- Counting calls after the list `e`. -/
def countsFrom (self : Reader Expr) : Nat → Expr → Reader Expr
  | 0, e, ts => .ok (e, ts)
  | _ + 1, e, [] => .ok (e, [])
  | n + 1, e, t :: ts =>
      if t.token = .symbol .dot then do
        let ts ← Token.expect (.ident "count") ts
        let ts ← Token.expect (.symbol .openParen) ts
        let (item, ts) ← self ts
        let ts ← Token.expect (.symbol .closeParen) ts
        countsFrom self n (.count e item) ts
      else .ok (e, t :: ts)

/-- An atom and the counting calls on it. -/
def counting (self : Reader Expr) : Reader Expr := fun ts => do
  let (e, rest) ← atom self ts
  countsFrom self rest.length e rest

/-- The minus sign becomes part of an integer literal. -/
def negated : Expr → Expr
  | .literal (.int n) => .int (-n)
  | e => .unary .neg e

theorem negated_of_ne {e : Expr} (hne : ∀ n, e ≠ .int n) : negated e = .unary .neg e := by
  unfold negated
  split
  · exact absurd rfl (hne _)
  · rfl

/-- Minus signs before a counting expression. -/
def sign (self : Reader Expr) : Reader Expr
  | [] => counting self []
  | t :: ts =>
      if t.token = .symbol .minus then do
        let (e, rest) ← sign self ts
        return (negated e, rest)
      else counting self (t :: ts)

/-- Products of signed operands. -/
def product (self : Reader Expr) : Reader Expr :=
  chain (sign self) productOp?

/-- Sums of products. -/
def sum (self : Reader Expr) : Reader Expr :=
  chain (product self) sumOp?

/-- A sum, or adjacent comparisons of sums. -/
def comparison (self : Reader Expr) : Reader Expr := fun ts => do
  let (first, rest) ← sum self ts
  comparisonsFrom (sum self) rest.length none first rest

/-- The operator `not` before a comparison. -/
def negation (self : Reader Expr) : Reader Expr
  | [] => comparison self []
  | t :: ts =>
      if t.token = .keyword .not then do
        let (e, rest) ← negation self ts
        return (.unary .not e, rest)
      else comparison self (t :: ts)

/-- Conjunctions of negations. -/
def conjunction (self : Reader Expr) : Reader Expr :=
  chain (negation self) andOp?

/-- Disjunctions of conjunctions, the loosest level. -/
def disjunction (self : Reader Expr) : Reader Expr :=
  chain (conjunction self) orOp?

/-! ## Whole expressions -/

/-- An expression at the front of at most `n` tokens. -/
def exprWithin : Nat → Reader Expr
  | 0 => fun _ => .error .unexpectedEnd
  | n + 1 => disjunction (exprWithin n)

/-- The expression that a list of tokens spells. -/
def ofTokens (ts : List Located) : Except ParseError Expr := do
  let (e, rest) ← exprWithin ts.length ts
  match rest with
  | [] => .ok e
  | t :: _ => .error t.unexpected

/-- The expression that a text spells. -/
def parse (s : String) : Except ParseError Expr := do
  ofTokens (← Token.readAll s.toList)

end FiniteDomain.Expr
