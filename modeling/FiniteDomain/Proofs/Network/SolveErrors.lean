import Mathlib
import FiniteDomain.Proofs.Expr.Failures
import FiniteDomain.Proofs.Network.Sessions
import FiniteDomain.Proofs.Network.Solutions

/-!
# Errors of a solve

A solve evaluates constraints at five places, among them the tests of values during propagation, which give values to
variables that the search has not reached. Still a solve is given up only for a failure that a constraint of the network
has on values of the domains of its variables, and never for want of a value; so constraints that fail on no such
values are solved under every configuration (`genuine_of_solve`).
-/

namespace FiniteDomain.Network

open Variables

variable {net start : Network}

/-- A genuine failure is never that a variable holds no value. -/
theorem Genuine.cause_ne {e : SolveError} (h : net.Genuine e) (name : String) :
    e.cause ≠ .unassignedVariable name := by
  obtain ⟨c, -, -, a, -, herror⟩ := h
  have hnever : NeverUnassigned (c.expr.eval (c.scope.map a) >>= Constraint.truthOf) := by
    refine (c.expr.eval_neverUnassigned _).bind fun v => ?_
    cases v <;> simp [Constraint.truthOf, NeverUnassigned]
  intro hcause
  exact hnever name (hcause ▸ herror)

/-- At any time in a session, a solve is given up only if a constraint fails as reported on values that its variables
have in their domains before the solve, and never for want of a value. If no constraint fails on any such values, no
solve is given up, whatever the configuration. -/
theorem genuine_of_solve (hbuilt : start.Built) (h : start.Reaches net) :
    (∀ e, net.solve.result = .error e →
      (∃ c ∈ net.constraints, c.source = e.source ∧ ∃ a : Nat → Value,
        (∀ x ∈ c.scope, a x ∈ domain net.vars x) ∧
          (c.expr.eval (c.scope.map a) >>= Constraint.truthOf) = .error e.cause) ∧
      ∀ name, e.cause ≠ .unassignedVariable name) ∧
    ((∀ c ∈ net.constraints, ∀ a : Nat → Value, (∀ x ∈ c.scope, a x ∈ domain net.vars x) →
        ∀ cause, (c.expr.eval (c.scope.map a) >>= Constraint.truthOf) ≠ .error cause) →
      ∀ config, ∃ stats, (net.configure config).solve.result = .ok stats) := by
  have hgenuine : ∀ config e, (net.configure config).solve.result = .error e → net.Genuine e :=
    fun config _ he => genuine_of_result ((h.linked hbuilt).configure config) he
  refine ⟨fun e he => ⟨hgenuine net.config e he, (hgenuine net.config e he).cause_ne⟩, ?_⟩
  intro hnever config
  cases hresult : (net.configure config).solve.result with
  | ok stats => exact ⟨stats, rfl⟩
  | error e =>
      obtain ⟨c, hc, -, a, ha, herror⟩ := hgenuine config e hresult
      exact absurd herror (hnever c hc a ha e.cause)

/-- The failure of `dividing` is that of its constraint on the value zero. The constraint of `ascending` never fails, so
that every configuration solves it. -/
theorem genuine_of_solve_dividing :
    (dividing.configure { initialNode := true }).solve.result
        = .error ⟨"1 / A == 1", .divisionByZero⟩ ∧
      (∃ c ∈ dividing.constraints, c.source = "1 / A == 1" ∧ ∃ a : Nat → Value,
        (∀ x ∈ c.scope, a x ∈ domain dividing.vars x) ∧
          (c.expr.eval (c.scope.map a) >>= Constraint.truthOf) = .error .divisionByZero) ∧
      ∀ config, ∃ stats, (ascending.configure config).solve.result = .ok stats := by
  have hresult : (dividing.configure { initialNode := true }).solve.result
      = .error ⟨"1 / A == 1", .divisionByZero⟩ := by cbv
  have hfails := ((genuine_of_solve built_dividing (.configure { initialNode := true } .refl)).1 _ hresult).1
  refine ⟨hresult, hfails, (genuine_of_solve built_ascending .refl).2 ?_⟩
  intro c hc a ha cause
  obtain rfl := List.mem_singleton.mp hc
  have hA : a 0 ∈ [Value.int 1, .int 2] := ha 0 (by simp)
  have hB : a 1 ∈ [Value.int 2, .int 1] := ha 1 (by simp)
  simp only [List.mem_cons, List.not_mem_nil, or_false] at hA hB
  intro herror
  rcases hA with hA | hA <;> rcases hB with hB | hB <;> simp only [List.map_cons, List.map_nil, hA, hB] at herror <;>
    cases herror

end FiniteDomain.Network
