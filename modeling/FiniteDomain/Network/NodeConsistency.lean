import FiniteDomain.Network.Solver

/-!
# Node consistency

A constraint with one variable left without a value is a test on that variable alone: the values that fail it
are removed from the domain, in order, until the domain is filtered or turns out empty.
-/

namespace FiniteDomain.Network

/-- Removes the values that violate the constraint `c` from the domain of `x`, each of which `x` holds while it
is tested. The values are those of the domain from `position` on. -/
def filterFrom (net : Network) (c x : Nat) : Nat → List Value → Solver Unit
  | _, [] => pure ()
  | position, v :: vs => do
      Solver.assign x v
      if ← net.check c then
        net.filterFrom c x (position + 1) vs
      else
        Solver.removeValue x position
        net.filterFrom c x position vs

/-- Removes the values that violate the constraint `c` from the domain of `x`, which holds no value before and
after. -/
def filterDomain (net : Network) (c x : Nat) : Solver Unit := do
  let domain ← Solver.look fun r => Variables.domain r.vars x
  (net.filterFrom c x 0 domain).ensuring (·.free x)

/-- Filters the domain of the first variable without a value of each constraint, until a domain is empty. -/
def nodeConsistency (net : Network) : List Nat → Solver Verdict
  | [] => pure .consistent
  | c :: cs => do
      match ← Solver.look fun r => net.unassigned r.vars c with
      | [] => net.nodeConsistency cs
      | x :: _ => do
          net.filterDomain c x
          if ← Solver.look fun r => (Variables.domain r.vars x).isEmpty then
            return .conflict
          else net.nodeConsistency cs

end FiniteDomain.Network
