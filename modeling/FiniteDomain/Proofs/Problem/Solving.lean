import Mathlib
import FiniteDomain.Proofs.Network.Meaning
import FiniteDomain.Proofs.Network.Relinking
import FiniteDomain.Proofs.Network.Solutions

/-!
# Solving a problem

What the solutions of a problem are is said by names alone: every variable takes a value of its domain and every
constraint is true of the values. A problem whose declarations are sound and whose constraints are true or false of
all values of the domains is linked, and under every configuration a solve of it succeeds and collects exactly these
solutions (`exists_solve`). A family of problems has solutions of its own kind, such as rows of queens; that a solve
finds each of them once is `SolvedExactly`.
-/

namespace FiniteDomain.Problem

open Network Variables

variable {p : Problem} {net : Network}

/-- Every variable has a value of its domain, and every constraint is true of the values. -/
structure SolvedBy (p : Problem) (a : String → Value) : Prop where
  mem_domain : ∀ w ∈ p.vars, a w.name ∈ w.domain
  evalNamed_eq_true : ∀ c ∈ p.constraints,
    c.expr.evalNamed (declared (p.vars.map (·.name)) a) = .ok (.bool true)

/-- Every constraint is true or false when the variables that it mentions have values of their domains. -/
def Decisive (p : Problem) : Prop :=
  ∀ c ∈ p.constraints, ∀ a : String → Value,
    (∀ w ∈ p.vars, c.expr.Mentions w.name → a w.name ∈ w.domain) →
      ∃ b, c.expr.evalNamed (declared (p.vars.map (·.name)) a) = .ok (.bool b)

/-- The problem links, and under every configuration a solve of it succeeds and collects the solutions with the
property `q`, as `read` writes them, each once. -/
def SolvedExactly {α : Type} (p : Problem) (read : α → Solution) (q : α → Prop) : Prop :=
  ∃ net, ofProblem p = .ok net ∧ ∀ config,
    (∃ stats, (net.configure config).solve.result = .ok stats) ∧
      ∃ found : List α, (net.configure config).solve.collected = found.map read ∧ found.Nodup ∧
        ∀ r, r ∈ found ↔ q r

/-! ## Problems and their networks -/

/-- A linked constraint says of the variables what the constraint says by names. -/
theorem eval_linked (h : ofProblem p = .ok net) (c : Constraint) (a : String → Value) :
    (linkConstraint (p.vars.map (·.name)) c).expr.eval
        ((linkConstraint (p.vars.map (·.name)) c).scope.map fun x => a (name net.vars x))
      = c.expr.evalNamed (declared (p.vars.map (·.name)) a) := by
  simp only [name_eq_getD, names_of_link h]
  exact eval_linkConstraint _ c a

/-- Linking keeps the declarations. -/
theorem declaration_vars (h : ofProblem p = .ok net) :
    net.vars.map Variable.declaration = p.vars.map Variable.declaration := by
  apply List.ext_getElem?
  intro x
  rw [List.getElem?_map, List.getElem?_map, getElem?_vars_of_link h, Option.map_map]
  rfl

/-- Linking changes no domain. -/
theorem forall_mem_vars_iff (h : ofProblem p = .ok net) {P : String × List Value → Prop} :
    (∀ w ∈ net.vars, P w.declaration) ↔ ∀ w ∈ p.vars, P w.declaration := by
  rw [← List.forall_mem_map, declaration_vars h, List.forall_mem_map]

/-- A problem and its network are solved by the same assignments. -/
theorem solvedBy_iff (h : ofProblem p = .ok net) (a : String → Value) : net.SolvedBy a ↔ p.SolvedBy a := by
  obtain ⟨-, -, hconstraints, -⟩ := eq_of_link h
  have hdomains := forall_mem_vars_iff h (P := fun d => a d.1 ∈ d.2)
  constructor
  · rintro ⟨hmem, heval⟩
    refine ⟨hdomains.mp hmem, fun c hc => ?_⟩
    rw [← eval_linked h c a]
    exact heval _ (hconstraints ▸ List.mem_map_of_mem hc)
  · rintro ⟨hmem, heval⟩
    refine ⟨hdomains.mpr hmem, fun k hk => ?_⟩
    rw [hconstraints] at hk
    obtain ⟨c, hc, rfl⟩ := List.mem_map.mp hk
    rw [eval_linked h c a]
    exact heval c hc

/-- A problem and its network write a solution alike. -/
theorem ofNames_vars (h : ofProblem p = .ok net) (a : String → Value) :
    Solution.ofNames net.vars a = .ofNames p.vars a := by
  have hpairs : ∀ vars : List Variable,
      vars.map (fun w => (w.name, a w.name)) = (vars.map (·.name)).map fun s => (s, a s) := by
    intro vars
    rw [List.map_map]
    rfl
  rw [Solution.ofNames, Solution.ofNames, hpairs, hpairs, names_of_link h]

/-- In a network of a decisive problem no constraint fails. -/
theorem Decisive.not_genuine (hp : p.Decisive) (h : ofProblem p = .ok net) (e : SolveError) :
    ¬ net.Genuine e := by
  have hnet := linked_of_link h
  obtain ⟨-, -, hconstraints, -⟩ := eq_of_link h
  rintro ⟨k, hk, -, b, hb, hfails⟩
  have hlt := hnet.lt_length k hk
  rw [hconstraints] at hk
  obtain ⟨c, hc, rfl⟩ := List.mem_map.mp hk
  obtain ⟨a, ha⟩ := exists_names hnet b
  have hscope : (linkConstraint (p.vars.map (·.name)) c).scope.map b
      = (linkConstraint (p.vars.map (·.name)) c).scope.map fun x => a (name net.vars x) :=
    List.map_congr_left fun x hx => (ha x (hlt x hx)).symm
  have hmem : ∀ w ∈ p.vars, c.expr.Mentions w.name → a w.name ∈ w.domain := by
    intro w hw hmentions
    obtain ⟨x, hx⟩ := List.mem_iff_getElem?.mp hw
    have hname : (p.vars.map (·.name))[x]? = some w.name := by rw [List.getElem?_map, hx]; rfl
    have hlinked := getElem?_vars_of_link h x
    rw [hx, Option.map_some] at hlinked
    have hnames : (p.vars.map (·.name)).Nodup := names_of_link h ▸ hnet.nodup_names
    have hin := (mem_mentioned_iff hnames hname).mpr hmentions
    have hbx := hb x hin
    rw [← ha x (hlt x hin)] at hbx
    simpa [name, domain, hlinked] using hbx
  obtain ⟨t, ht⟩ := hp c hc a hmem
  rw [hscope, eval_linked h c a, ht] at hfails
  cases hfails

/-! ## Solves -/

/-- A decisive problem with sound declarations is linked, and under every configuration a solve succeeds and collects
exactly the assignments that solve the problem, each once. -/
theorem exists_solve (hnames : (p.vars.map (·.name)).Nodup) (hdomains : ∀ w ∈ p.vars, w.domain.Nodup)
    (hp : p.Decisive) :
    ∃ net, ofProblem p = .ok net ∧ ∀ config,
      (∃ stats, (net.configure config).solve.result = .ok stats) ∧
        (net.configure config).solve.collected.Nodup ∧
          ∀ s, s ∈ (net.configure config).solve.collected ↔ ∃ a, p.SolvedBy a ∧ s = .ofNames p.vars a := by
  obtain ⟨net, h⟩ := (link_eq_ok_iff p.vars p.constraints).mpr ⟨hnames, hdomains⟩
  have hnet := linked_of_link h
  refine ⟨net, h, fun config => ?_⟩
  cases hresult : (net.configure config).solve.result with
  | error e => exact absurd (genuine_of_result (hnet.configure config) hresult) (hp.not_genuine h e)
  | ok stats =>
      obtain ⟨hmem, hnodup, -⟩ := collected_solve (hnet.configure config) hresult
      refine ⟨⟨stats, rfl⟩, hnodup, fun s => ?_⟩
      have hextension := (hmem s).trans (extension_iff_solvedBy hnet s)
      simpa only [solvedBy_iff h, ofNames_vars h] using hextension

/-- The solutions of a problem may be said in the terms of its family, if these tell solutions apart. -/
theorem solvedExactly {α : Type} {read : α → Solution} {q : α → Prop}
    (hnames : (p.vars.map (·.name)).Nodup) (hdomains : ∀ w ∈ p.vars, w.domain.Nodup) (hp : p.Decisive)
    (hread : Function.Injective read)
    (hq : ∀ s, (∃ a, p.SolvedBy a ∧ s = .ofNames p.vars a) ↔ ∃ r, q r ∧ read r = s) :
    p.SolvedExactly read q := by
  obtain ⟨net, h, hsolve⟩ := exists_solve hnames hdomains hp
  refine ⟨net, h, fun config => ?_⟩
  obtain ⟨hresult, hnodup, hmem⟩ := hsolve config
  refine ⟨hresult, ?_⟩
  have hfound : ∀ s, s ∈ (net.configure config).solve.collected ↔ ∃ r, q r ∧ read r = s :=
    fun s => (hmem s).trans (hq s)
  obtain ⟨found, hcollected⟩ : (net.configure config).solve.collected ∈ Set.range (List.map read) := by
    rw [Set.range_list_map]
    intro s hs
    obtain ⟨r, -, hr⟩ := (hfound s).mp hs
    exact ⟨r, hr⟩
  rw [← hcollected] at hnodup hfound
  refine ⟨found, hcollected.symm, hnodup.of_map read, fun r => ?_⟩
  rw [← List.mem_map_of_injective hread, hfound]
  constructor
  · rintro ⟨r', hr', heq⟩
    exact hread heq ▸ hr'
  · exact fun hr => ⟨r, hr, rfl⟩

end FiniteDomain.Problem
