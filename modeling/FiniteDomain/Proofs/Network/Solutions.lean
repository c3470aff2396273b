import Mathlib
import FiniteDomain.Proofs.Network.Exhaustive

/-!
# The solutions of a network

What a solve is to find is said without reference to the search: full assignments of values to names that take
every value from its domain and make every bound predicate true. Whatever the propagation and the order of
variables, a solve that is not given up collects exactly these, each once, and counts them
(`collected_configure_solve`), so the solutions depend on neither.
-/

namespace FiniteDomain

open Variables

/-- A full assignment of values to names, as a solution. -/
def Solution.ofNames (vars : List Variable) (a : String → Value) : Solution :=
  ⟨vars.map fun w => (w.name, a w.name)⟩

namespace Network

variable {net : Network}

/-- The full assignment gives every variable a value of its domain and makes the bound predicate of every
constraint true. -/
structure SolvedBy (net : Network) (a : String → Value) : Prop where
  mem_domain : ∀ w ∈ net.vars, a w.name ∈ w.domain
  eval_eq_true : ∀ c ∈ net.constraints,
    c.expr.eval (c.scope.map fun x => a (name net.vars x)) = .ok (.bool true)

/-! ## Names and numbers -/

/-- An assignment to names reads the same through the numbers of the variables. -/
theorem ofNames_eq_ofAssignment (vars : List Variable) (a : String → Value) :
    Solution.ofNames vars a = .ofAssignment vars fun x => a (name vars x) := by
  refine congrArg Solution.mk (List.mapIdx_eq_iff.mpr fun x => ?_).symm
  rw [List.getElem?_map]
  cases hx : vars[x]? with
  | none => rfl
  | some w => simp [name, hx]

/-- Every assignment to the numbers is one to the names, since names differ. -/
theorem exists_names (hnet : net.Linked) (b : Nat → Value) :
    ∃ a : String → Value, ∀ x, x < net.vars.length → a (name net.vars x) = b x := by
  refine ⟨fun s => b ((net.vars.map (·.name)).idxOf s), fun x hx => ?_⟩
  have hx' : x < (net.vars.map (·.name)).length := by simpa using hx
  have hname : name net.vars x = (net.vars.map (·.name))[x] := by
    simp [name, List.getElem?_eq_getElem hx]
  rw [hname]
  exact congrArg b (hnet.nodup_names.idxOf_getElem x hx')

/-- Before a solve, what extends the variables takes every value from its domain. -/
theorem extends_iff (hnet : net.Linked) {b : Nat → Value} :
    Extends b net.vars ↔ ∀ x, x < net.vars.length → b x ∈ domain net.vars x := by
  constructor
  · exact fun h x hx => h.mem_domain x hx (hnet.value?_eq_none x)
  · intro h
    constructor
    · intro x v hv
      rw [hnet.value?_eq_none] at hv
      cases hv
    · exact fun x hx _ => h x hx

/-- The solutions that a solve is to find, by names and by numbers. -/
theorem extension_iff_solvedBy (hnet : net.Linked) (s : Solution) :
    net.Extension net.vars s ↔ ∃ a, net.SolvedBy a ∧ s = .ofNames net.vars a := by
  constructor
  · rintro ⟨b, hext, hsat, rfl⟩
    obtain ⟨a, ha⟩ := exists_names hnet b
    refine ⟨a, ⟨?_, ?_⟩, ?_⟩
    · intro w hw
      obtain ⟨x, hx, rfl⟩ := List.getElem_of_mem hw
      have hmem := (extends_iff hnet).mp hext x hx
      rw [← ha x hx] at hmem
      simpa [name, domain, List.getElem?_eq_getElem hx] using hmem
    · intro c hc
      have hscope : (c.scope.map fun x => a (name net.vars x)) = c.scope.map b :=
        List.map_congr_left fun x hx => ha x (hnet.lt_length c hc x hx)
      rw [hscope]
      exact hsat c hc
    · rw [ofNames_eq_ofAssignment]
      refine congrArg Solution.mk (List.mapIdx_eq_mapIdx_iff.mpr fun x hx => ?_)
      exact congrArg (Prod.mk _) (ha x hx).symm
  · rintro ⟨a, ha, rfl⟩
    refine ⟨fun x => a (name net.vars x), (extends_iff hnet).mpr ?_, ?_, ?_⟩
    · intro x hx
      have hmem := ha.mem_domain net.vars[x] (List.getElem_mem hx)
      simpa [name, domain, List.getElem?_eq_getElem hx] using hmem
    · exact fun c hc => ha.eval_eq_true c hc
    · exact ofNames_eq_ofAssignment net.vars a

/-! ## The solutions that a solve collects -/

/-- Under every configuration, a solve that is not given up collects exactly the full assignments that take every
value from its domain and make every constraint true, each once, and counts them. Another configuration collects
the same, in some order. -/
theorem collected_configure_solve (hbuilt : net.Built) (config : Config) {stats : Stats}
    (h : (net.configure config).solve.result = .ok stats) :
    (∀ s, s ∈ (net.configure config).solve.collected ↔ ∃ a, net.SolvedBy a ∧ s = .ofNames net.vars a) ∧
      (net.configure config).solve.collected.Nodup ∧
      stats.solutions = (net.configure config).solve.collected.length ∧
      ∀ config' stats', (net.configure config').solve.result = .ok stats' →
        (net.configure config').solve.collected.Perm (net.configure config).solve.collected := by
  have hmem : ∀ config' stats', (net.configure config').solve.result = .ok stats' → ∀ s,
      s ∈ (net.configure config').solve.collected ↔ ∃ a, net.SolvedBy a ∧ s = .ofNames net.vars a := by
    intro config' stats' h' s
    obtain ⟨hextension, -⟩ := collected_solve (hbuilt.linked.configure config') h'
    exact (hextension s).trans (extension_iff_solvedBy hbuilt.linked s)
  obtain ⟨-, hnodup, hcount⟩ := collected_solve (hbuilt.linked.configure config) h
  refine ⟨hmem config stats h, hnodup, hcount, ?_⟩
  intro config' stats' h'
  obtain ⟨-, hnodup', -⟩ := collected_solve (hbuilt.linked.configure config') h'
  refine (List.perm_ext_iff_of_nodup hnodup' hnodup).mpr fun s => ?_
  rw [hmem config' stats' h', hmem config stats h]

/-- Two variables, the first below the second. -/
def ascending : Network where
  vars := [⟨"A", [.int 1, .int 2], none, [0]⟩, ⟨"B", [.int 2, .int 1], none, [0]⟩]
  constraints := [⟨"A < B", .binary .lt (.slot 0 "A") (.slot 1 "B"), [0, 1]⟩]

theorem built_ascending : ascending.Built := by
  have hlink : link [⟨"A", [.int 1, .int 2], none, []⟩, ⟨"B", [.int 2, .int 1], none, []⟩]
      [⟨"A < B", .binary .lt (.ident "A") (.ident "B"), []⟩] = .ok ascending := by cbv
  exact .link hlink

/-- All propagation is on. -/
def eager : Config :=
  ⟨true, true, true, true, .mostConstrained⟩

/-- With all propagation on, what is collected of `ascending` are its solutions. -/
theorem collected_configure_solve_ascending :
    (ascending.configure eager).solve.result = .ok ⟨1, 3, 8⟩ ∧
      ∀ s, s ∈ (ascending.configure eager).solve.collected ↔
        ∃ a, ascending.SolvedBy a ∧ s = .ofNames ascending.vars a := by
  have hresult : (ascending.configure eager).solve.result = .ok ⟨1, 3, 8⟩ := by cbv
  exact ⟨hresult, (collected_configure_solve built_ascending eager hresult).1⟩

end Network

end FiniteDomain
