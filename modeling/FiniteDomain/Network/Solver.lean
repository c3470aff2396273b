import FiniteDomain.Network.Basic
import FiniteDomain.Network.Event
import FiniteDomain.Network.Trail

/-!
# Computations of a running solve

A solve works on the variables of a network, counts what it does, and keeps a trail of the values it removes,
a log and the solutions found. A computation of a solve may fail because a constraint cannot be evaluated, but
what it did up to then stays: an action that ends with `ensuring` tidies up after a failure too.
-/

namespace FiniteDomain

/-- A constraint that cannot be evaluated ends the solve. -/
structure SolveError where
  /-- The text of the constraint. -/
  source : String
  cause : EvalError
  deriving DecidableEq

/-- The text shown for the error. -/
def SolveError.message (e : SolveError) : String :=
  "error evaluating constraint \"" ++ e.source ++ "\": " ++ e.cause.message

/-- The state of a running solve. -/
structure Run where
  vars : List Variable
  /-- The number of variables under assignment. -/
  assigned : Nat := 0
  stats : Stats := {}
  /-- The values removed since the trail was last begun. -/
  trail : Trail := {}
  /-- The log, the latest record first. -/
  events : List Event := []
  /-- The solutions found, the latest first. -/
  solutions : List Solution := []

/-- The state after the value at a position is removed from the domain of `x`. -/
def Run.removeValue (r : Run) (x position : Nat) : Run :=
  { r with
    vars := (r.trail.remove r.vars x position).1
    trail := (r.trail.remove r.vars x position).2 }

/-- The state after `x` is given a value. -/
def Run.assign (r : Run) (x : Nat) (v : Value) : Run :=
  { r with vars := Variables.assign r.vars x v }

/-- The state after `x` is freed. -/
def Run.free (r : Run) (x : Nat) : Run :=
  { r with vars := Variables.free r.vars x }

/-- A computation of a solve: from a state to its result or failure, and the state it leaves. -/
structure Solver (α : Type) where
  run : Run → Except SolveError α × Run

namespace Solver

variable {α β : Type}

/-- The computation that does nothing. -/
protected def pure (a : α) : Solver α := ⟨fun r => (.ok a, r)⟩

/-- One computation after the other; a failure of the first ends both. -/
protected def bind (act : Solver α) (next : α → Solver β) : Solver β := ⟨fun r =>
  match act.run r with
  | (.ok a, r') => (next a).run r'
  | (.error e, r') => (.error e, r')⟩

instance : Monad Solver where
  pure := Solver.pure
  bind := Solver.bind

/-- Something read off the state. -/
def look (f : Run → α) : Solver α := ⟨fun r => (.ok (f r), r)⟩

/-- A change of the state. -/
def update (f : Run → Run) : Solver Unit := ⟨fun r => (.ok (), f r)⟩

/-- A computation followed by a change of the state, which is made after a failure too. -/
def ensuring (act : Solver α) (after : Run → Run) : Solver α :=
  ⟨fun r => ((act.run r).1, after (act.run r).2)⟩

@[simp] theorem run_pure (a : α) (r : Run) : (pure a : Solver α).run r = (.ok a, r) := rfl

@[simp] theorem run_look (f : Run → α) (r : Run) : (look f).run r = (.ok (f r), r) := rfl

@[simp] theorem run_update (f : Run → Run) (r : Run) : (update f).run r = (.ok (), f r) := rfl

@[simp] theorem run_ensuring (act : Solver α) (after : Run → Run) (r : Run) :
    (ensuring act after).run r = ((act.run r).1, after (act.run r).2) := rfl

theorem run_bind (act : Solver α) (next : α → Solver β) (r : Run) :
    (act >>= next).run r = match act.run r with
      | (.ok a, r') => (next a).run r'
      | (.error e, r') => (.error e, r') := rfl

theorem run_bind_ok {act : Solver α} {r r' : Run} {a : α} (h : act.run r = (.ok a, r'))
    (next : α → Solver β) : (act >>= next).run r = (next a).run r' := by
  rw [run_bind, h]

theorem run_bind_error {act : Solver α} {r r' : Run} {e : SolveError}
    (h : act.run r = (.error e, r')) (next : α → Solver β) :
    (act >>= next).run r = (.error e, r') := by
  rw [run_bind, h]

/-- A failure ends what comes after it. -/
theorem fst_run_bind_of_error {act : Solver α} {r : Run} {e : SolveError} (h : (act.run r).1 = .error e)
    (next : α → Solver β) : ((act >>= next).run r).1 = .error e := by
  rw [run_bind_error (Prod.ext h rfl)]

/-- What comes after a computation counts only in the states and for the results that it comes to. -/
theorem run_bind_congr {act : Solver α} {next next' : α → Solver β} {r : Run}
    (h : ∀ a r', act.run r = (.ok a, r') → (next a).run r' = (next' a).run r') :
    (act >>= next).run r = (act >>= next').run r := by
  rw [run_bind, run_bind]
  rcases hrun : act.run r with ⟨e | a, r'⟩
  · rfl
  · exact h a r' hrun

@[simp] theorem run_look_bind (f : Run → α) (next : α → Solver β) (r : Run) :
    (look f >>= next).run r = (next (f r)).run r := rfl

@[simp] theorem run_update_bind (f : Run → Run) (next : Unit → Solver β) (r : Run) :
    (update f >>= next).run r = (next ()).run (f r) := rfl

/-- A record added to the log. -/
def emit (e : Event) : Solver Unit :=
  update fun r => { r with events := e :: r.events }

/-- The value at a position removed from the domain of `x`. -/
def removeValue (x position : Nat) : Solver Unit :=
  update (·.removeValue x position)

/-- The variable `x` given a value. -/
def assign (x : Nat) (v : Value) : Solver Unit :=
  update (·.assign x v)

/-- A computation whose removals are undone at its end. -/
def undoing (act : Solver α) : Solver α := do
  let outer ← look (·.trail)
  update fun r => { r with trail := {} }
  act.ensuring fun r => { r with vars := r.trail.revert r.vars, trail := outer }

/-- Records what a trail removed from each domain. -/
def logTrail (initial : Bool) (kind : Consistency) (t : Trail) (r : Run) : Run :=
  t.byVariable.foldl (fun r (x, values) =>
    { r with events :=
        .removed r.assigned initial kind values (Variables.name r.vars x) :: r.events }) r

/-- A computation whose removals are logged at its end and then belong to the trail around it. -/
def logging (initial : Bool) (kind : Consistency) (act : Solver α) : Solver α := do
  let outer ← look (·.trail)
  update fun r => { r with trail := {} }
  act.ensuring fun r => { logTrail initial kind r.trail r with trail := outer ++ r.trail }

end Solver

/-- What enforcing a consistency comes to. -/
inductive Verdict where
  | consistent
  /-- A variable has no value left. -/
  | conflict
  deriving DecidableEq, Repr

namespace Network

/-- The constraint with a number; a number past the last stands for a constraint that is always true. -/
def constraintAt (net : Network) (c : Nat) : Constraint :=
  net.constraints[c]?.getD (.ofExpr (.literal (.bool true)))

/-- Whether the constraint `c` is true under what the variables hold; counts the evaluation. -/
def check (net : Network) (c : Nat) : Solver Bool :=
  ⟨fun r =>
    (match (net.constraintAt c).holds r.vars with
      | .ok b => .ok b
      | .error e => .error ⟨(net.constraintAt c).source, e⟩,
    { r with stats := { r.stats with evaluations := r.stats.evaluations + 1 } })⟩

/-- The variables of the constraint `c` that hold no value. -/
def unassigned (net : Network) (vars : List Variable) (c : Nat) : List Nat :=
  (net.constraintAt c).unassigned vars

/-- The constraints on `x` in which exactly `n` variables hold no value. -/
def constraintsWith (net : Network) (vars : List Variable) (x n : Nat) : List Nat :=
  (Variables.links vars x).filter fun c => (net.unassigned vars c).length = n

/-- The constraints with `n` variables. -/
def constraintsOfArity (net : Network) (n : Nat) : List Nat :=
  (List.range net.constraints.length).filter fun c => (net.constraintAt c).arity = n

/-- Evaluating a constraint changes no variable. -/
theorem run_check_variables (net : Network) (c : Nat) (r : Run) :
    ((net.check c).run r).2.vars = r.vars := rfl

end Network

end FiniteDomain
