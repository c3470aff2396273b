import Mathlib
import FiniteDomain.Proofs.Network.Exhaustive

/-!
# Networks that are solved again

A solve, failed or not, leaves the network as it was but for the counters: every domain in its order, no value held,
names, links and constraints alone. So in a session of configuring and solving, every solve does what it would do on
a new network with the same configuration, whatever came before it.
-/

namespace FiniteDomain.Network

variable {net net' : Network}

/-- The networks that configuring and solving make of a network, in any order and number. -/
inductive Reaches (net : Network) : Network → Prop where
  | refl : Reaches net net
  | configure {net' : Network} (config : Config) : Reaches net net' → Reaches net (net'.configure config)
  | solve {net' : Network} : Reaches net net' → Reaches net net'.solve.network

/-- Nothing is assigned in a network that was made and not solved yet. -/
theorem Built.assigned_eq_zero (h : net.Built) : net.assigned = 0 := by
  obtain ⟨vars, constraints, hlink⟩ := h.exists_link
  exact (eq_of_link hlink).2.2.2.2.1

/-- A session changes the configuration and the counters only. -/
theorem Reaches.exists_eq (hnet : net.Linked) (hassigned : net.assigned = 0) (h : net.Reaches net') :
    ∃ config stats, net' = { net with config := config, stats := stats } := by
  induction h with
  | refl => exact ⟨net.config, net.stats, rfl⟩
  | configure config _ ih =>
      obtain ⟨-, stats, rfl⟩ := ih
      exact ⟨config, stats, rfl⟩
  | solve _ ih =>
      obtain ⟨config, stats, rfl⟩ := ih
      have hlinked : ({ net with config := config, stats := stats } : Network).Linked :=
        (hnet.configure config).rewound net.assigned stats
      have hnetwork := network_solve hlinked
      rw [← hassigned] at hnetwork
      exact ⟨config, _, hnetwork⟩

/-- Every network of a session is linked. -/
theorem Reaches.linked (hbuilt : net.Built) (h : net.Reaches net') : net'.Linked := by
  obtain ⟨config, stats, rfl⟩ := h.exists_eq hbuilt.linked hbuilt.assigned_eq_zero
  exact (hbuilt.linked.configure config).rewound net.assigned stats

/-- In a session, every solve, failed or not, leaves the network as it was but for the counters, with all domains
in their order and no value held; and it does, streams and counts what a solve of the new network with the same
configuration does. -/
theorem solve_of_reaches (hbuilt : net.Built) (h : net.Reaches net') :
    net'.solve.network = { net' with stats := net'.solve.network.stats } ∧
      net'.solve.network.vars = net.vars ∧
      (∀ w ∈ net'.solve.network.vars, w.value = none) ∧
      net'.solve.network.assigned = 0 ∧
      net'.solve = (net.configure net'.config).solve := by
  have hassigned := hbuilt.assigned_eq_zero
  obtain ⟨config, stats, rfl⟩ := h.exists_eq hbuilt.linked hassigned
  have hlinked : ({ net with config := config, stats := stats } : Network).Linked :=
    (hbuilt.linked.configure config).rewound net.assigned stats
  have hnetwork := network_solve hlinked
  rw [← hassigned] at hnetwork
  refine ⟨hnetwork, ?_, ?_, ?_, rfl⟩
  · rw [hnetwork]
  · intro w hw
    rw [hnetwork] at hw
    obtain ⟨x, hx, rfl⟩ := List.getElem_of_mem hw
    have hnone := hbuilt.linked.value?_eq_none x
    simpa [Variables.value?, List.getElem?_eq_getElem hx] using hnone
  · rw [hnetwork]
    exact hassigned

/-- One value of the variable makes the constraint divide by zero. -/
def dividing : Network where
  vars := [⟨"A", [.int 1, .int 0], none, [0]⟩]
  constraints := [⟨"1 / A == 1", .binary .eq (.binary .div (.int 1) (.slot 0 "A")) (.int 1), [0]⟩]

theorem built_dividing : dividing.Built := by
  have hlink : link [⟨"A", [.int 1, .int 0], none, []⟩]
      [⟨"1 / A == 1", .binary .eq (.binary .div (.int 1) (.ident "A")) (.int 1), []⟩]
        = .ok dividing := by cbv
  exact .link hlink

/-- After a solve of `dividing` that fails, the next one does what it does on the new network. -/
theorem solve_of_reaches_dividing :
    (dividing.configure { initialNode := true }).solve.result
        = .error ⟨"1 / A == 1", .divisionByZero⟩ ∧
      dividing.Reaches ((dividing.configure { initialNode := true }).solve.network.configure {}) ∧
      ((dividing.configure { initialNode := true }).solve.network.configure {}).solve
        = (dividing.configure {}).solve := by
  have hreaches : dividing.Reaches
      ((dividing.configure { initialNode := true }).solve.network.configure {}) :=
    .configure _ (.solve (.configure _ .refl))
  obtain ⟨-, -, -, -, hsolve⟩ := solve_of_reaches built_dividing hreaches
  exact ⟨by cbv, hreaches, hsolve⟩

end FiniteDomain.Network
