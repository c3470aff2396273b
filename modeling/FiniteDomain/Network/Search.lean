import FiniteDomain.Network.ArcConsistency
import FiniteDomain.Network.NodeConsistency

/-!
# Backtracking search

All solutions are found by assigning one variable after the other. After an assignment the constraints with
all variables assigned are checked, then, as configured, the domains of the variables next to the assigned one
are filtered; what was removed is put back before the next value is tried. The search is a recursion on the
number of variables that remain to be assigned.

Before the search the constraints without variables are checked, and the whole problem may be made node and
arc consistent.
-/

namespace FiniteDomain.Network

/-! ## Consistency around the search -/

/-- Whether the constraints `cs` are all true under what the variables hold. -/
def allHold (net : Network) : List Nat → Solver Bool
  | [] => pure true
  | c :: cs => do
      if ← net.check c then net.allHold cs else return false

/-- Enforces node consistency for the constraints and records the removals. -/
def enforceNode (net : Network) (initial : Bool) (constraints : List Nat) : Solver Verdict := do
  let verdict ← net.nodeConsistency constraints
  Solver.update fun r => Solver.logTrail initial .node r.trail r
  return verdict

/-- Enforces arc consistency for the constraints and around the changed variables, and records the
removals. -/
def enforceArc (net : Network) (initial : Bool) (constraints changed : List Nat) : Solver Verdict :=
  Solver.logging initial .arc (net.arcConsistency constraints changed)

/-- Makes the problem consistent before the search, as configured. -/
def preprocess (net : Network) : Solver Verdict := do
  if net.config.initialNode then
    if (← net.enforceNode true (net.constraintsOfArity 1)) = .conflict then
      Solver.emit (.initialConflict .node)
      return .conflict
  if net.config.initialArc then
    if (← net.enforceArc true (net.constraintsOfArity 2) []) = .conflict then
      Solver.emit (.initialConflict .arc)
      return .conflict
  return .consistent

/-- Enforces consistency around the newly assigned variable `x`, as configured. -/
def propagate (net : Network) (x : Nat) : Solver Verdict := do
  if net.config.node then
    let constraints ← Solver.look fun r => net.constraintsWith r.vars x 1
    if (← net.enforceNode false constraints) = .conflict then
      Solver.emit (.conflict (← Solver.look (·.assigned)) .node)
      return .conflict
  if net.config.arc then
    let constraints ← Solver.look fun r => net.constraintsWith r.vars x 2
    let changed ← Solver.look (·.trail.changed)
    if (← net.enforceArc false constraints changed) = .conflict then
      Solver.emit (.conflict (← Solver.look (·.assigned)) .arc)
      return .conflict
  return .consistent

/-! ## The search -/

/-- The variables and their values, as a solution. -/
def solutionOf (vars : List Variable) : Solution :=
  ⟨vars.filterMap fun v => v.value.map (v.name, ·)⟩

/-- Records the present assignment as a solution. -/
def recordSolution : Solver Unit :=
  Solver.update fun r =>
    let solution := solutionOf r.vars
    { r with
      events := .solutionFound r.assigned solution :: r.events
      stats := { r.stats with solutions := r.stats.solutions + 1 }
      solutions := solution :: r.solutions }

/-- Assigns the value `v` to `x` and goes on with `next` unless a conflict shows. -/
def tryValue (net : Network) (next : Solver Unit) (x : Nat) (v : Value) : Solver Unit := do
  Solver.update fun r =>
    { r with
      events := .assigning r.assigned v (Variables.name r.vars x) :: r.events
      vars := Variables.assign r.vars x v }
  let complete ← Solver.look fun r => net.constraintsWith r.vars x 0
  if ← net.allHold complete then
    Solver.undoing do
      match ← net.propagate x with
      | .consistent => next
      | .conflict => pure ()
  else Solver.emit (.directConflict (← Solver.look (·.assigned)))

/-- Tries the values for `x` in order. -/
def tryValues (net : Network) (next : Solver Unit) (x : Nat) : List Value → Solver Unit
  | [] => pure ()
  | v :: vs => do
      net.tryValue next x v
      net.tryValues next x vs

/-- Tries every value of the domain of `x`, which holds no value before and after. -/
def branch (net : Network) (next : Solver Unit) (x : Nat) : Solver Unit := do
  Solver.update fun r => { r with assigned := r.assigned + 1 }
  let domain ← Solver.look fun r => Variables.domain r.vars x
  Solver.update fun r =>
    { r with events := .choosing r.assigned (Variables.name r.vars x) domain :: r.events }
  (net.tryValues next x domain).ensuring fun r =>
    { r with vars := Variables.free r.vars x, assigned := r.assigned - 1 }

/-- Counts a visited state. -/
def countState : Solver Unit :=
  Solver.update fun r => { r with stats := { r.stats with states := r.stats.states + 1 } }

/-- Finds the solutions that extend the present assignment, which leaves out the given number of
variables. -/
def search (net : Network) : Nat → Solver Unit
  | 0 => do
      countState
      recordSolution
  | remaining + 1 => do
      countState
      match ← Solver.look fun r =>
          net.config.heuristic.select net.constraints r.vars r.assigned with
      | none => recordSolution
      | some x => net.branch (net.search remaining) x

/-! ## Whole solves -/

/-- Finds every solution. -/
def explore (net : Network) : Solver Unit := do
  if ← net.allHold (net.constraintsOfArity 0) then
    Solver.undoing do
      match ← net.preprocess with
      | .consistent =>
          Solver.emit .searchBegun
          net.search net.vars.length
      | .conflict => pure ()
    Solver.emit (.finished (← Solver.look (·.stats)))
  else Solver.emit .constantFalse

/-- What a solve comes to. -/
structure Outcome where
  /-- The statistics, or why the solve was given up. -/
  result : Except SolveError Stats
  /-- The network after the solve. -/
  network : Network
  /-- The solutions in the order in which they were found, those found before a failure included. -/
  solutions : List Solution
  /-- The log records in order. -/
  events : List Event

/-- The network with its counters at the start of a solve. -/
def rewound (net : Network) : Network :=
  { net with assigned := 0, stats := {} }

/-- Finds every solution of the network. -/
def solve (net : Network) : Outcome :=
  let start := net.rewound
  let (result, r) := start.explore.run { vars := start.vars }
  { result := result.map fun _ => r.stats
    network := { start with vars := r.vars, assigned := r.assigned, stats := r.stats }
    solutions := r.solutions.reverse
    events := r.events.reverse }

/-- The solutions of a solve that was not given up. -/
def Outcome.collected (o : Outcome) : List Solution :=
  match o.result with
  | .ok _ => o.solutions
  | .error _ => []

/-- The records of linking the network. -/
def linkEvents (net : Network) : List Event :=
  net.unresolved.map .unresolvedName

end FiniteDomain.Network
