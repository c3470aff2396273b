import FiniteDomain.Network.Solver
import FiniteDomain.Proofs.FirstOccurrences
import FiniteDomain.Proofs.Network.Variables
import FiniteDomain.Proofs.Problem.Repetitions

/-!
# Linked networks

What linking establishes and every solve relies on: constraints mention variables of the network only, a variable
lists exactly the constraints that mention it, names and the values of a domain differ, and no variable holds a
value (`linked_of_link`). Neither the configuration nor the counters have a part in it.
-/

namespace FiniteDomain

namespace Network

/-- What linking establishes. -/
structure Linked (net : Network) : Prop where
  lt_length : ∀ c ∈ net.constraints, ∀ x ∈ c.scope, x < net.vars.length
  nodup_scope : ∀ c ∈ net.constraints, c.scope.Nodup
  links_eq : ∀ x, x < net.vars.length → Variables.links net.vars x = constraintsOn net.constraints x
  nodup_names : (net.vars.map (·.name)).Nodup
  nodup_domain : ∀ x, (Variables.domain net.vars x).Nodup
  value?_eq_none : ∀ x, Variables.value? net.vars x = none

/-- A constraint with a number is one of the network or mentions no variable. -/
theorem constraintAt_mem_or_scope_eq_nil (net : Network) (c : Nat) :
    net.constraintAt c ∈ net.constraints ∨ (net.constraintAt c).scope = [] := by
  rw [constraintAt]
  cases hc : net.constraints[c]? with
  | none => exact .inr rfl
  | some k => exact .inl (List.mem_of_getElem? hc)

/-- A constraint of the network has a number. -/
theorem exists_constraintAt {net : Network} {k : Constraint} (hk : k ∈ net.constraints) :
    ∃ c < net.constraints.length, net.constraintAt c = k := by
  obtain ⟨c, hc, rfl⟩ := List.getElem_of_mem hk
  exact ⟨c, hc, by simp [constraintAt, List.getElem?_eq_getElem hc]⟩

theorem Linked.lt_length_of_mem_scope {net : Network} (hnet : net.Linked) {c x : Nat}
    (hx : x ∈ (net.constraintAt c).scope) : x < net.vars.length := by
  rcases net.constraintAt_mem_or_scope_eq_nil c with hc | hc
  · exact hnet.lt_length _ hc x hx
  · rw [hc] at hx
    cases hx

theorem mem_constraintsOn_iff {constraints : List Constraint} {x c : Nat} :
    c ∈ constraintsOn constraints x ↔ ∃ k, constraints[c]? = some k ∧ x ∈ k.scope := by
  simp only [constraintsOn, List.mem_filter, List.mem_range]
  constructor
  · rintro ⟨hc, hx⟩
    exact ⟨constraints[c], List.getElem?_eq_getElem hc, by
      simpa [List.getElem?_eq_getElem hc] using hx⟩
  · rintro ⟨k, hk, hx⟩
    exact ⟨(List.getElem?_eq_some_iff.mp hk).1, by simpa [hk] using hx⟩

/-- A constraint is linked to exactly the variables that it mentions. -/
theorem Linked.mem_links {net : Network} (hnet : net.Linked) {x : Nat} (hx : x < net.vars.length) (c : Nat) :
    c ∈ Variables.links net.vars x ↔ x ∈ (net.constraintAt c).scope := by
  rw [hnet.links_eq x hx, mem_constraintsOn_iff, constraintAt]
  cases hc : net.constraints[c]? with
  | none => simp [Constraint.ofExpr]
  | some k => simp

/-- A constraint lists no variable twice. -/
theorem nodup_mentioned (names : List String) (e : Expr) : (mentioned names e).Nodup := by
  refine List.pairwise_filterMap.mpr ((nodup_eraseDups _).imp ?_)
  rintro s t hst x hs y ht rfl
  obtain ⟨_, rfl, -⟩ := List.idxOf?_eq_some_iff.mp hs
  obtain ⟨_, rfl, -⟩ := List.idxOf?_eq_some_iff.mp ht
  exact hst rfl

/-- A constraint mentions variables that have a number. -/
theorem lt_length_of_mem_mentioned {names : List String} {e : Expr} {x : Nat}
    (hx : x ∈ mentioned names e) : x < names.length := by
  obtain ⟨s, -, hs⟩ := List.mem_filterMap.mp hx
  exact (List.idxOf?_eq_some_iff.mp hs).1

/-- Linking succeeds only for sound declarations, and what it makes of them. -/
theorem eq_of_link {vars : List Variable} {constraints : List Constraint} {net : Network}
    (h : link vars constraints = .ok net) :
    checkVariables vars = .ok () ∧
      net.vars = vars.mapIdx (fun x v =>
        { v with
          value := none
          constraints := constraintsOn (constraints.map (linkConstraint (vars.map (·.name)))) x }) ∧
      net.constraints = constraints.map (linkConstraint (vars.map (·.name))) ∧
      net.config = {} ∧ net.assigned = 0 ∧ net.stats = {} ∧
      net.unresolved = unresolvedNames (vars.map (·.name)) constraints := by
  rw [link] at h
  cases hv : checkVariables vars with
  | error e => simp [hv, bind, Except.bind] at h
  | ok u =>
      simp only [hv, bind, Except.bind, pure, Except.pure, Except.ok.injEq] at h
      subst h
      exact ⟨rfl, rfl, rfl, rfl, rfl, rfl, rfl⟩

/-- Sound declarations are linked. -/
theorem exists_link_of_checkVariables {vars : List Variable} (h : checkVariables vars = .ok ())
    (constraints : List Constraint) : ∃ net, link vars constraints = .ok net := by
  rw [link, h]
  exact ⟨_, rfl⟩

/-- Linking keeps the names of the variables. -/
theorem names_of_link {vars : List Variable} {constraints : List Constraint} {net : Network}
    (h : link vars constraints = .ok net) : net.vars.map (·.name) = vars.map (·.name) := by
  obtain ⟨-, hvars, -⟩ := eq_of_link h
  rw [hvars]
  apply List.ext_getElem?
  intro x
  rw [List.getElem?_map, List.getElem?_map, List.getElem?_mapIdx, Option.map_map]
  rfl

/-- A linked variable keeps its name and its domain and nothing else. -/
theorem getElem?_vars_of_link {vars : List Variable} {constraints : List Constraint} {net : Network}
    (h : link vars constraints = .ok net) (x : Nat) :
    net.vars[x]? = vars[x]?.map fun v : Variable =>
      ({ v with value := none, constraints := constraintsOn net.constraints x } : Variable) := by
  obtain ⟨-, hvars, hconstraints, -⟩ := eq_of_link h
  rw [hvars, hconstraints, List.getElem?_mapIdx]

/-- Linking links. -/
theorem linked_of_link {vars : List Variable} {constraints : List Constraint} {net : Network}
    (h : link vars constraints = .ok net) : net.Linked := by
  obtain ⟨hcheck, hvars, hconstraints, -⟩ := eq_of_link h
  obtain ⟨hnames, hdomains⟩ := (checkVariables_eq_ok_iff vars).mp hcheck
  have hlength : net.vars.length = vars.length := by simp [hvars]
  have hget := getElem?_vars_of_link h
  constructor
  · intro c hc x hx
    rw [hconstraints] at hc
    obtain ⟨k, -, rfl⟩ := List.mem_map.mp hc
    have hlt := lt_length_of_mem_mentioned hx
    rwa [List.length_map, ← hlength] at hlt
  · intro c hc
    rw [hconstraints] at hc
    obtain ⟨k, -, rfl⟩ := List.mem_map.mp hc
    exact nodup_mentioned _ _
  · intro x hx
    rw [Variables.links, hget x, List.getElem?_eq_getElem (hlength ▸ hx)]
    rfl
  · rw [names_of_link h]
    exact hnames
  · intro x
    rw [Variables.domain, hget x]
    cases hx : vars[x]? with
    | none => simp
    | some v => exact hdomains v (List.mem_of_getElem? hx)
  · intro x
    rw [Variables.value?, hget x]
    cases vars[x]? <;> rfl

/-- The networks that are made of variables and constraints, of variables and the texts of constraints, or of a
problem. -/
inductive Built : Network → Prop where
  | link {vars : List Variable} {constraints : List Constraint} {net : Network} :
      link vars constraints = .ok net → Built net
  | linkSources {vars : List Variable} {sources : List String} {net : Network} :
      linkSources vars sources = .ok net → Built net
  | ofProblem {p : Problem} {net : Network} : ofProblem p = .ok net → Built net

/-- Every way to make a network links it. -/
theorem Built.exists_link {net : Network} (h : net.Built) :
    ∃ vars constraints, Network.link vars constraints = .ok net := by
  cases h with
  | link h => exact ⟨_, _, h⟩
  | @linkSources vars sources _ h =>
      rw [Network.linkSources] at h
      cases hs : parseSources sources with
      | error e => simp [hs, bind, Except.bind] at h
      | ok constraints =>
          rw [hs] at h
          exact ⟨vars, constraints, h⟩
  | ofProblem h => exact ⟨_, _, h⟩

theorem Built.linked {net : Network} (h : net.Built) : net.Linked := by
  obtain ⟨vars, constraints, hlink⟩ := h.exists_link
  exact linked_of_link hlink

/-- The configuration has no part in the links. -/
theorem Linked.configure {net : Network} (h : net.Linked) (config : Config) :
    (net.configure config).Linked :=
  ⟨h.lt_length, h.nodup_scope, h.links_eq, h.nodup_names, h.nodup_domain, h.value?_eq_none⟩

/-- The counters have no part in the links. -/
theorem Linked.rewound {net : Network} (h : net.Linked) (assigned : Nat) (stats : Stats) :
    ({ net with assigned := assigned, stats := stats } : Network).Linked :=
  ⟨h.lt_length, h.nodup_scope, h.links_eq, h.nodup_names, h.nodup_domain, h.value?_eq_none⟩

end Network

end FiniteDomain
