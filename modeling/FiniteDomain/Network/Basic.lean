import FiniteDomain.Expr.Binding
import FiniteDomain.Expr.Names
import FiniteDomain.Network.Heuristic
import FiniteDomain.Network.Stats
import FiniteDomain.Problem.Setup

/-!
# Constraint networks

A network is a problem whose variables and constraints know each other: a constraint lists the variables that
its predicate mentions, in level order, and its names are bound to positions in that list; a variable lists
the constraints that mention it. Linking starts from the names alone, so nothing that variables and
constraints were linked to before has any influence on the result.
-/

namespace FiniteDomain

/-- Which consistency is enforced when, and the order of variables. -/
structure Config where
  /-- Node consistency before the search. -/
  initialNode : Bool := false
  /-- Arc consistency before the search. -/
  initialArc : Bool := false
  /-- Node consistency after every assignment. -/
  node : Bool := false
  /-- Arc consistency after every assignment. -/
  arc : Bool := false
  heuristic : Heuristic := .default
  deriving DecidableEq

/-- Linked variables and constraints. -/
structure Network where
  vars : List Variable
  constraints : List Constraint
  config : Config := {}
  /-- The number of variables that hold a value. -/
  assigned : Nat := 0
  /-- The counters of the last solve. -/
  stats : Stats := {}
  /-- The names in the constraints that are no variables. -/
  unresolved : List String := []

namespace Network

/-! ## Linking -/

/-- The numbers of the variables that a predicate mentions. -/
def mentioned (names : List String) (e : Expr) : List Nat :=
  e.names.filterMap names.idxOf?

/-- The position of a name in the list of mentioned variables. -/
def slotOf? (names : List String) (mentioned : List Nat) (name : String) : Option Nat :=
  (names.idxOf? name).bind mentioned.idxOf?

/-- A constraint linked to the variables with the given names. -/
def linkConstraint (names : List String) (c : Constraint) : Constraint :=
  let numbers := mentioned names c.expr
  { c with expr := c.expr.bind (slotOf? names numbers), scope := numbers }

/-- The numbers of the constraints that mention the variable `x`. -/
def constraintsOn (constraints : List Constraint) (x : Nat) : List Nat :=
  (List.range constraints.length).filter fun c =>
    (constraints[c]?.map (·.scope.contains x)).getD false

/-- The distinct names in the constraints that are no variables, in the order in which they are met. -/
def unresolvedNames (names : List String) (constraints : List Constraint) : List String :=
  (constraints.flatMap fun c => c.expr.names.filter (! names.contains ·)).eraseDups

/-- The network of variables and constraints. -/
def link (vars : List Variable) (constraints : List Constraint) : Except SetupError Network := do
  checkVariables vars
  let names := vars.map (·.name)
  let linked := constraints.map (linkConstraint names)
  return {
    vars := vars.mapIdx fun x v =>
      { v with value := none, constraints := constraintsOn linked x }
    constraints := linked
    unresolved := unresolvedNames names constraints }

/-- The constraints that texts spell. -/
def parseSources : List String → Except SetupError (List Constraint)
  | [] => .ok []
  | s :: rest =>
      match Constraint.parse s with
      | .error e => .error (.invalidConstraint e)
      | .ok c => do return c :: (← parseSources rest)

/-- The network of variables and constraints given by their texts. -/
def linkSources (vars : List Variable) (sources : List String) : Except SetupError Network := do
  link vars (← parseSources sources)

/-- The network of a problem. -/
def ofProblem (p : Problem) : Except SetupError Network :=
  link p.vars p.constraints

/-- The network with another configuration. -/
def configure (net : Network) (config : Config) : Network :=
  { net with config := config }

/-- The number of the variable with a name. -/
def variableNumber? (net : Network) (name : String) : Option Nat :=
  net.vars.findIdx? (·.name = name)

end Network

end FiniteDomain
