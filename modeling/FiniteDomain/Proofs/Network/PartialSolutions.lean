import Mathlib
import FiniteDomain.Proofs.Network.Linked
import FiniteDomain.Proofs.Network.Satisfaction

/-!
# Partial solutions

Values for the first variables under which no constraint on these alone fails. They form a tree: the first values of a
partial solution are one (`PartialSolution.initial`), and what begins with a partial solution is itself or goes on
with one of the values of the next variable (`partialsFrom_eq_insert`). A search in declaration order walks down this
tree.
-/

namespace FiniteDomain.Network

open Variables

variable {net : Network} {vs ws us : List Value} {v : Value} {k x : Nat}

/-- Values for the first `k` variables, under which every constraint is true that has variables, all of them among
those `k`. -/
structure PartialSolution (net : Network) (k : Nat) (vs : List Value) : Prop where
  le_length : k ≤ net.vars.length
  length_eq : vs.length = k
  mem_domain : ∀ x v, vs[x]? = some v → v ∈ domain net.vars x
  satisfied : ∀ c ∈ net.constraints, c.scope ≠ [] → (∀ x ∈ c.scope, x < k) →
    c.SatisfiedBy fun x => vs.getD x (.bool true)

/-- A constraint reads the values of its own variables only. -/
theorem satisfiedBy_getD_iff {c : Constraint} (hscope : ∀ x ∈ c.scope, x < vs.length) (hbegins : vs <+: ws) :
    (c.SatisfiedBy fun x => ws.getD x (.bool true)) ↔ c.SatisfiedBy fun x => vs.getD x (.bool true) := by
  obtain ⟨more, rfl⟩ := hbegins
  have hsame : (c.scope.map fun x => (vs ++ more).getD x (.bool true))
      = c.scope.map fun x => vs.getD x (.bool true) :=
    List.map_congr_left fun x hx => List.getD_append _ _ _ _ (hscope x hx)
  rw [Constraint.SatisfiedBy, Constraint.SatisfiedBy, hsame]

/-- The first values of a partial solution are a partial solution. -/
theorem PartialSolution.initial (h : net.PartialSolution k ws) (hbegins : vs <+: ws) :
    net.PartialSolution vs.length vs := by
  have hle : vs.length ≤ k := h.length_eq ▸ hbegins.length_le
  refine ⟨hle.trans h.le_length, rfl, ?_, ?_⟩
  · intro x v hv
    obtain ⟨more, rfl⟩ := hbegins
    have hx : x < vs.length := (List.getElem?_eq_some_iff.mp hv).1
    exact h.mem_domain x v ((List.getElem?_append_left hx).trans hv)
  · intro c hc hne hscope
    exact (satisfiedBy_getD_iff hscope hbegins).mp
      (h.satisfied c hc hne fun x hx => (hscope x hx).trans_le hle)

/-- Constraints on variables that hold the values `vs` read these. -/
theorem holds_of_held {vars : List Variable} (hheld : ∀ x, value? vars x = vs[x]?) {c : Constraint}
    (hscope : ∀ x ∈ c.scope, x < vs.length) :
    c.holds vars = c.expr.eval (c.scope.map fun x => vs.getD x (.bool true)) >>= Constraint.truthOf := by
  refine Constraint.holds_eq_of_held fun x hx => ?_
  rw [hheld, List.getElem?_eq_getElem (hscope x hx), List.getD_eq_getElem _ _ (hscope x hx)]

/-- Values under which a constraint with variables is false are no partial solution. -/
theorem not_partialSolution_of_holds {vars : List Variable} (hheld : ∀ x, value? vars x = vs[x]?) {c : Nat}
    (hx : x ∈ (net.constraintAt c).scope) (hfalse : (net.constraintAt c).holds vars = .ok false) :
    ¬ net.PartialSolution vs.length vs := by
  intro hpartial
  have hne : (net.constraintAt c).scope ≠ [] := List.ne_nil_of_mem hx
  have hscope : ∀ y ∈ (net.constraintAt c).scope, y < vs.length := by
    intro y hy
    have hsome := Constraint.isSome_of_holds hfalse y hy
    simpa [hheld] using hsome
  have hmem := (net.constraintAt_mem_or_scope_eq_nil c).resolve_right hne
  have htrue := hpartial.satisfied _ hmem hne hscope
  rw [holds_of_held hheld hscope, Constraint.bind_truthOf_eq_ok_iff.mpr htrue] at hfalse
  cases hfalse

/-! ## The tree of partial solutions -/

/-- The partial solutions that begin with the values `vs`. -/
def partialsFrom (net : Network) (vs : List Value) : Set (Nat × List Value) :=
  {p | net.PartialSolution p.1 p.2 ∧ vs <+: p.2}

/-- The partial solutions that begin with the values `vs` and then one of the values `us`. -/
def partialsAfter (net : Network) (vs us : List Value) : Set (Nat × List Value) :=
  {p | net.PartialSolution p.1 p.2 ∧ ∃ u ∈ us, vs ++ [u] <+: p.2}

/-- Nothing begins with values that are no partial solution. -/
theorem partialsFrom_eq_empty (h : ¬ net.PartialSolution vs.length vs) : net.partialsFrom vs = ∅ :=
  Set.eq_empty_of_forall_notMem fun _ hp => h (hp.1.initial hp.2)

theorem partialsAfter_cons : net.partialsAfter vs (v :: us)
    = net.partialsFrom (vs ++ [v]) ∪ net.partialsAfter vs us := by
  ext p
  simp only [partialsAfter, partialsFrom, Set.mem_union, Set.mem_ofPred_eq, List.mem_cons, exists_eq_or_imp,
    and_or_left]

/-- What goes on with a value differs from what goes on with others. -/
theorem disjoint_partials (hv : v ∉ us) :
    Disjoint (net.partialsFrom (vs ++ [v])) (net.partialsAfter vs us) := by
  refine Set.disjoint_left.mpr ?_
  rintro p ⟨-, hbegins⟩ ⟨-, u, hu, hbegins'⟩
  have hlength : (vs ++ [v]).length = (vs ++ [u]).length := by
    rw [List.length_append, List.length_append, List.length_singleton, List.length_singleton]
  have heq : vs ++ [v] = vs ++ [u] :=
    (List.prefix_of_prefix_length_le hbegins hbegins' hlength.le).eq_of_length hlength
  rw [List.append_cancel_left_eq, List.singleton_inj] at heq
  exact hv (heq ▸ hu)

theorem partialsAfter_mono {us' : List Value} (h : us ⊆ us') : net.partialsAfter vs us ⊆ net.partialsAfter vs us' :=
  fun _ ⟨hp, u, hu, hbegins⟩ => ⟨hp, u, h hu, hbegins⟩

/-- A partial solution of some variables is itself what begins with it, or goes on with a value of the next one. -/
theorem partialsFrom_eq_insert (h : net.PartialSolution vs.length vs) :
    net.partialsFrom vs = insert (vs.length, vs) (net.partialsAfter vs (domain net.vars vs.length)) := by
  ext ⟨k, ws⟩
  constructor
  · rintro ⟨hp, more, rfl⟩
    cases more with
    | nil =>
        rw [List.append_nil] at hp ⊢
        exact .inl (Prod.ext hp.length_eq.symm rfl)
    | cons u more =>
        refine .inr ⟨hp, u, hp.mem_domain _ u ?_, more, by simp⟩
        simp
  · rintro (heq | ⟨hp, u, -, hbegins⟩)
    · cases heq
      exact ⟨h, List.prefix_rfl⟩
    · exact ⟨hp, (List.prefix_append vs [u]).trans hbegins⟩

theorem notMem_partialsAfter : (k, vs) ∉ net.partialsAfter vs us := by
  rintro ⟨-, u, -, hbegins⟩
  have hle := hbegins.length_le
  simp at hle

/-- Nothing goes on after the last variable. -/
theorem partialsAfter_eq_empty (h : net.vars.length ≤ vs.length) : net.partialsAfter vs us = ∅ := by
  refine Set.eq_empty_of_forall_notMem ?_
  rintro p ⟨hp, u, -, hbegins⟩
  have hlength := hbegins.length_le
  rw [hp.length_eq, List.length_append, List.length_singleton] at hlength
  have := hp.le_length
  omega

end FiniteDomain.Network
