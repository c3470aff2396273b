import FiniteDomain.Expr.Parser
import FiniteDomain.Expr.Printer

/-!
# Problems

A problem is a list of variables with finite, ordered domains and a list of constraints, each a predicate with
the text that it was given by. Variables and constraints also hold what solving adds to them: a variable the
value it is assigned and the constraints that mention it, a constraint the variables that it mentions. All of
that is empty until they are linked.
-/

namespace FiniteDomain

/-- A named variable with a finite, ordered domain. -/
structure Variable where
  name : String
  /-- The values that are still possible, in order. -/
  domain : List Value
  /-- The value that is assigned. -/
  value : Option Value := none
  /-- The numbers of the constraints that mention the variable. -/
  constraints : List Nat := []
  deriving DecidableEq

/-- A predicate over some variables. -/
structure Constraint where
  /-- The text of the predicate. -/
  source : String
  expr : Expr
  /-- The numbers of the variables that the predicate mentions. -/
  scope : List Nat := []
  deriving DecidableEq

namespace Constraint

/-- The constraint that a text spells. -/
def parse (source : String) : Except ParseError Constraint := do
  return { source := source, expr := ← Expr.parse source }

/-- The constraint of an expression, whose printed form becomes its text. -/
def ofExpr (e : Expr) : Constraint :=
  { source := e.text, expr := e }

/-- The number of variables that the predicate mentions. -/
def arity (c : Constraint) : Nat :=
  c.scope.length

end Constraint

/-- Variables and the constraints over them. -/
structure Problem where
  vars : List Variable := []
  constraints : List Constraint := []
  deriving DecidableEq

namespace Problem

/-- The problem with one more variable. -/
def addVariable (p : Problem) (v : Variable) : Problem :=
  { p with vars := p.vars ++ [v] }

/-- The problem with more constraints. -/
def addConstraints (p : Problem) (cs : List Constraint) : Problem :=
  { p with constraints := p.constraints ++ cs }

/-- The problem with one more constraint. -/
def addConstraint (p : Problem) (c : Constraint) : Problem :=
  p.addConstraints [c]

end Problem

end FiniteDomain
