import FiniteDomain.Problem.Basic
import FiniteDomain.Problem.Domain

/-!
# Families of problems

Pairwise inequality, and the problem of placing `n` queens on a board of `n` columns so that no two attack
each other: variable `Qi` is the row of the queen in column `i`, queens stand in different rows, and no two
are as many rows as columns apart.
-/

namespace FiniteDomain

/-- The pairs of an item and a later one, in lexicographic order of their positions. -/
def pairs {α : Type} : List α → List (α × α)
  | [] => []
  | a :: as => as.map (a, ·) ++ pairs as

/-- The constraints that the named variables take pairwise different values. -/
def allDifferent (names : List String) : List Constraint :=
  (pairs names).map fun (a, b) => .ofExpr (.binary .ne (.ident a) (.ident b))

/-- The values `0`, …, `n - 1`; none if `n` is past the greatest word. -/
def Value.upTo (n : Nat) : List Value :=
  Value.range 0 (Int64.ofNat n)

namespace Problem

/-- The variable of column `i`. -/
def queenName (i : Nat) : String :=
  "Q" ++ toString i

/-- The queens in columns `i` and `j` are not on one diagonal. -/
def offDiagonal (i j : Nat) : Expr :=
  .binary .ne (.int (Int64.ofNat (j - i)))
    (.call "abs" [.binary .sub (.ident (queenName i)) (.ident (queenName j))])

/-- The problem of `n` queens: first the rows, then the diagonals. -/
def queens (n : Nat) : Problem where
  vars := (List.range n).map fun i => { name := queenName i, domain := Value.upTo n }
  constraints := allDifferent ((List.range n).map queenName)
    ++ (pairs (List.range n)).map fun (i, j) => .ofExpr (offDiagonal i j)

end Problem

end FiniteDomain
