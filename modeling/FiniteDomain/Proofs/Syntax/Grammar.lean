import FiniteDomain.Expr.Basic
import FiniteDomain.Token.Basic

/-!
# The grammar of expressions

What a list of tokens spells, said by rules and without reference to how it is read. Each level of the grammar has
the phrases of the next tighter level and those of its own operators:

* operators between operands of one level group from the left (`binary`);
* comparisons side by side are joined by `and`, also from the left (`compare`, `compareMore`);
* `not` and the minus sign stand before a phrase of their own level, and the sign becomes part of an integer
  literal (`negative`), but an operator before any other operand (`minus`);
* brackets hold phrases of the loosest level, separated by commas where there may be several, with one more comma
  after the last allowed.
-/

namespace FiniteDomain

/-! ## Lists of tokens -/

/-- The tokens of a list without their places. -/
def tokensOf (ts : List Located) : List Token :=
  ts.map (·.token)

@[simp] theorem tokensOf_nil : tokensOf [] = [] := rfl

@[simp] theorem tokensOf_cons (t : Located) (ts : List Located) :
    tokensOf (t :: ts) = t.token :: tokensOf ts := rfl

@[simp] theorem tokensOf_append (ts us : List Located) :
    tokensOf (ts ++ us) = tokensOf ts ++ tokensOf us :=
  List.map_append

theorem length_tokensOf (ts : List Located) : (tokensOf ts).length = ts.length :=
  List.length_map _

theorem of_tokensOf_append {lts : List Located} {ts us : List Token} (h : tokensOf lts = ts ++ us) :
    ∃ front back, lts = front ++ back ∧ tokensOf front = ts ∧ tokensOf back = us :=
  List.map_eq_append_iff.mp h

theorem of_tokensOf_cons {lts : List Located} {t : Token} {us : List Token} (h : tokensOf lts = t :: us) :
    ∃ u back, lts = u :: back ∧ u.token = t ∧ tokensOf back = us :=
  List.map_eq_cons_iff.mp h

theorem of_tokensOf_singleton {lts : List Located} {t : Token} (h : tokensOf lts = [t]) :
    ∃ u, lts = [u] ∧ u.token = t := by
  obtain ⟨u, back, rfl, hu, hback⟩ := of_tokensOf_cons h
  obtain rfl : back = [] := List.map_eq_nil_iff.mp hback
  exact ⟨u, rfl, hu⟩

/-- Tokens between two brackets. -/
theorem of_tokensOf_between {lts : List Located} {t u : Token} {ts : List Token}
    (h : tokensOf lts = t :: (ts ++ [u])) :
    ∃ opening back closing, lts = opening :: (back ++ [closing]) ∧ opening.token = t ∧
      tokensOf back = ts ∧ closing.token = u := by
  obtain ⟨opening, lts₁, rfl, hopening, h₁⟩ := of_tokensOf_cons h
  obtain ⟨back, lts₂, rfl, hback, h₂⟩ := of_tokensOf_append h₁
  obtain ⟨closing, rfl, hclosing⟩ := of_tokensOf_singleton h₂
  exact ⟨opening, back, closing, rfl, hopening, hback, hclosing⟩

/-! ## The grammar -/

/-- The operator as a list of tokens. -/
def BinaryOp.tokens : BinaryOp → List Token
  | or => [.keyword .or]
  | and => [.keyword .and]
  | eq => [.symbol .eqEq]
  | ne => [.symbol .notEq]
  | lt => [.symbol .lt]
  | gt => [.symbol .gt]
  | le => [.symbol .le]
  | ge => [.symbol .ge]
  | mem => [.keyword .mem]
  | notMem => [.keyword .not, .keyword .mem]
  | add => [.symbol .plus]
  | sub => [.symbol .minus]
  | mul => [.symbol .star]
  | div => [.symbol .slash]
  | rem => [.symbol .percent]

namespace Expr

/-- The levels of the grammar, from the loosest to the tightest. -/
inductive Level where
  | disjunction
  | conjunction
  | negation
  | comparison
  | sum
  | product
  | sign
  | counting
  | atom
  deriving DecidableEq

/-- The next tighter level. -/
def Level.tighter? : Level → Option Level
  | .disjunction => some .conjunction
  | .conjunction => some .negation
  | .negation => some .comparison
  | .comparison => some .sum
  | .sum => some .product
  | .product => some .sign
  | .sign => some .counting
  | .counting => some .atom
  | .atom => none

/-- The level of the phrases that an operator makes. -/
def opLevel : BinaryOp → Level
  | .or => .disjunction
  | .and => .conjunction
  | .eq | .ne | .lt | .gt | .le | .ge | .mem | .notMem => .comparison
  | .add | .sub => .sum
  | .mul | .div | .rem => .product

/-- What a phrase can stand for. -/
inductive Phrase where
  /-- An expression of a level. -/
  | expr (level : Level) (e : Expr)
  /-- Comparisons side by side: what they amount to, and the operand of the last one that the next one would
  compare too. -/
  | comparisons (joined last : Expr)
  /-- Items between brackets. -/
  | items (es : List Expr)

/-- The phrases and their tokens. -/
inductive Derives : Phrase → List Token → Prop where
  | tighter {level tight : Level} {e : Expr} {ts : List Token} (h : level.tighter? = some tight) :
      Derives (.expr tight e) ts → Derives (.expr level e) ts
  | binary {op : BinaryOp} {tight : Level} {l r : Expr} {ts us : List Token}
      (hop : opLevel op ≠ .comparison) (h : (opLevel op).tighter? = some tight) :
      Derives (.expr (opLevel op) l) ts → Derives (.expr tight r) us →
      Derives (.expr (opLevel op) (.binary op l r)) (ts ++ (op.tokens ++ us))
  | not {e : Expr} {ts : List Token} :
      Derives (.expr .negation e) ts →
      Derives (.expr .negation (.unary .not e)) (.keyword .not :: ts)
  | compare {op : BinaryOp} {l r : Expr} {ts us : List Token} (hop : opLevel op = .comparison) :
      Derives (.expr .sum l) ts → Derives (.expr .sum r) us →
      Derives (.comparisons (.binary op l r) r) (ts ++ (op.tokens ++ us))
  | compareMore {op : BinaryOp} {e l r : Expr} {ts us : List Token} (hop : opLevel op = .comparison) :
      Derives (.comparisons e l) ts → Derives (.expr .sum r) us →
      Derives (.comparisons (.binary .and e (.binary op l r)) r) (ts ++ (op.tokens ++ us))
  | comparison {e l : Expr} {ts : List Token} :
      Derives (.comparisons e l) ts → Derives (.expr .comparison e) ts
  | negative {n : Int64} {ts : List Token} :
      Derives (.expr .sign (.int n)) ts → Derives (.expr .sign (.int (-n))) (.symbol .minus :: ts)
  | minus {e : Expr} {ts : List Token} (hne : ∀ n, e ≠ .int n) :
      Derives (.expr .sign e) ts → Derives (.expr .sign (.unary .neg e)) (.symbol .minus :: ts)
  | count {xs item : Expr} {ts us : List Token} :
      Derives (.expr .counting xs) ts → Derives (.expr .disjunction item) us →
      Derives (.expr .counting (.count xs item))
        (ts ++ .symbol .dot :: .ident "count" :: .symbol .openParen :: (us ++ [.symbol .closeParen]))
  | int (n : Int64) : Derives (.expr .atom (.int n)) [.int n]
  | str (s : String) : Derives (.expr .atom (.literal (.str s))) [.str s]
  | trueValue : Derives (.expr .atom (.literal (.bool true))) [.keyword .trueValue]
  | falseValue : Derives (.expr .atom (.literal (.bool false))) [.keyword .falseValue]
  | ident (name : String) : Derives (.expr .atom (.ident name)) [.ident name]
  | call (function : String) {args : List Expr} {ts : List Token} :
      Derives (.items args) ts →
      Derives (.expr .atom (.call function args))
        (.ident function :: .symbol .openParen :: (ts ++ [.symbol .closeParen]))
  | list {items : List Expr} {ts : List Token} :
      Derives (.items items) ts →
      Derives (.expr .atom (.list items)) (.symbol .openBracket :: (ts ++ [.symbol .closeBracket]))
  | parens {e : Expr} {ts : List Token} :
      Derives (.expr .disjunction e) ts →
      Derives (.expr .atom e) (.symbol .openParen :: (ts ++ [.symbol .closeParen]))
  | noItems : Derives (.items []) []
  | lastItem {e : Expr} {ts : List Token} :
      Derives (.expr .disjunction e) ts → Derives (.items [e]) ts
  | moreItems {e : Expr} {es : List Expr} {ts us : List Token} :
      Derives (.expr .disjunction e) ts → Derives (.items es) us →
      Derives (.items (e :: es)) (ts ++ .symbol .comma :: us)

end Expr

end FiniteDomain
