import FiniteDomain.Proofs.Network.Pruning

/-!
# Failures of evaluation

Whatever a solve has done, the values that variables hold and those left in the domains are values of the domains that
the network had before it (`Within`). A constraint is evaluated only when none of its variables is open, so a failure
is one that the constraint has on values of those domains: it is genuine (`Fails.genuine`).
-/

namespace FiniteDomain.Network

open Variables

variable {net : Network} {vars : List Variable} {r r' : Run} {x c : Nat} {v : Value}

/-! ## Values of the domains before the solve -/

/-- Names and links are those of the network, and every value held or left is one that the network has for the
variable. -/
structure Within (net : Network) (vars : List Variable) : Prop where
  frame : frame vars = frame net.vars
  mem_of_held : ∀ x v, value? vars x = some v → v ∈ domain net.vars x
  sublist : ∀ x, (domain vars x).Sublist (domain net.vars x)

theorem Linked.within (hnet : net.Linked) : net.Within net.vars := by
  refine ⟨rfl, ?_, fun x => List.Sublist.refl _⟩
  intro x v hv
  rw [hnet.value?_eq_none] at hv
  cases hv

namespace Within

theorem length (h : net.Within vars) : vars.length = net.vars.length :=
  length_eq_of_frame h.frame

theorem of_prunes (h : net.Within r.vars) (hprunes : Prunes net r r') : net.Within r'.vars := by
  refine ⟨hprunes.frame.trans h.frame, ?_, fun x => (hprunes.sublist x).trans (h.sublist x)⟩
  intro x v hv
  exact h.mem_of_held x v (by rw [← hprunes.value?, hv])

/-- Variables may be given values that the network has for them. -/
theorem assign (h : net.Within vars) (hv : v ∈ domain net.vars x) : net.Within (assign vars x v) := by
  refine ⟨frame_assign.trans h.frame, ?_, ?_⟩
  · intro y w hw
    by_cases hy : y = x
    · subst hy
      have hlt : y < vars.length := by
        rw [h.length]
        exact lt_length_of_domain_ne_nil (List.ne_nil_of_mem hv)
      rw [value?_assign_self hlt, Option.some.injEq] at hw
      exact hw ▸ hv
    · rw [value?_assign_of_ne hy] at hw
      exact h.mem_of_held y w hw
  · intro y
    rw [domain_assign]
    exact h.sublist y

/-- A value left for a variable is one that the network has for it. -/
theorem mem_domain (h : net.Within vars) (hv : v ∈ domain vars x) : v ∈ domain net.vars x :=
  (h.sublist x).subset hv

/-- A variable with a value left is one of the variables. -/
theorem lt_length (h : net.Within vars) (hv : v ∈ domain net.vars x) : x < vars.length := by
  rw [h.length]
  exact lt_length_of_domain_ne_nil (List.ne_nil_of_mem hv)

end Within

/-! ## Open variables of a constraint -/

/-- Which variables a constraint leaves open shows in the values held alone. -/
theorem unassigned_congr {vars vars' : List Variable} (h : ∀ x, value? vars' x = value? vars x) (c : Nat) :
    net.unassigned vars' c = net.unassigned vars c :=
  List.filter_congr fun x _ => by rw [h]

/-- A variable that is given a value is open no longer. -/
theorem unassigned_assign (hx : x < vars.length) :
    net.unassigned (assign vars x v) c = (net.unassigned vars c).filter (· ≠ x) := by
  rw [unassigned, Constraint.unassigned, unassigned, Constraint.unassigned, List.filter_filter]
  refine List.filter_congr fun y _ => ?_
  by_cases hy : y = x
  · subst hy
    simp [value?_assign_self hx]
  · simp [value?_assign_of_ne hy, hy]

/-- What a constraint leaves open does not depend on variables that it does not mention. -/
theorem unassigned_assign_of_notMem (hscope : x ∉ (net.constraintAt c).scope) :
    net.unassigned (assign vars x v) c = net.unassigned vars c := by
  refine List.filter_congr fun y hy => ?_
  rw [value?_assign_of_ne]
  rintro rfl
  exact hscope hy

/-- A constraint that has a variable with a value had one before a variable that it does not mention was given one. -/
theorem exists_held_of_assign (hscope : x ∉ (net.constraintAt c).scope)
    (h : ∃ z ∈ (net.constraintAt c).scope, (value? (assign vars x v) z).isSome) :
    ∃ z ∈ (net.constraintAt c).scope, (value? vars z).isSome := by
  obtain ⟨z, hz, hheld⟩ := h
  have hne : z ≠ x := by
    rintro rfl
    exact hscope hz
  exact ⟨z, hz, by rwa [value?_assign_of_ne hne] at hheld⟩

theorem unassigned_eq_nil_iff :
    net.unassigned vars c = [] ↔ ∀ y ∈ (net.constraintAt c).scope, (value? vars y).isSome := by
  simp [unassigned, Constraint.unassigned, List.filter_eq_nil_iff, Option.isSome_iff_ne_none]

/-- A constraint on a variable with a number of open variables leaves as many open. -/
theorem length_unassigned_of_mem_constraintsWith {n : Nat} (hc : c ∈ net.constraintsWith vars x n) :
    (net.unassigned vars c).length = n :=
  of_decide_eq_true (List.mem_filter.mp hc).2

theorem length_scope_of_mem_constraintsOfArity {n : Nat} (hc : c ∈ net.constraintsOfArity n) :
    (net.constraintAt c).scope.length = n :=
  of_decide_eq_true (List.mem_filter.mp hc).2

/-- A constraint that mentions variables is listed by their number. -/
theorem mem_constraintsOfArity {n : Nat} (h : (net.constraintAt c).scope.length = n + 1) :
    c ∈ net.constraintsOfArity (n + 1) := by
  rcases Nat.lt_or_ge c net.constraints.length with hc | hc
  · exact List.mem_filter.mpr ⟨List.mem_range.mpr hc, decide_eq_true h⟩
  · -- A number that no constraint has stands for one without variables.
    rw [constraintAt, List.getElem?_eq_none hc] at h
    cases h

/-- A constraint leaves at most as many variables open as it has. -/
theorem length_unassigned_le_of_mem_constraintsOfArity {n : Nat} (vars : List Variable)
    (hc : c ∈ net.constraintsOfArity n) : (net.unassigned vars c).length ≤ n := by
  rw [← length_scope_of_mem_constraintsOfArity hc]
  exact List.length_filter_le ..

/-- A constraint without variables leaves none open. -/
theorem unassigned_eq_nil_of_mem_constraintsOfArity (vars : List Variable)
    (hc : c ∈ net.constraintsOfArity 0) : net.unassigned vars c = [] :=
  List.length_eq_zero_iff.mp (Nat.le_zero.mp (length_unassigned_le_of_mem_constraintsOfArity vars hc))

/-- A constraint leaves no variable open twice. -/
theorem Linked.nodup_unassigned (hnet : net.Linked) (vars : List Variable) (c : Nat) :
    (net.unassigned vars c).Nodup := by
  rcases net.constraintAt_mem_or_scope_eq_nil c with hc | hc
  · exact (hnet.nodup_scope _ hc).sublist List.filter_sublist
  · simp [unassigned, Constraint.unassigned, hc]

/-- A variable that a constraint leaves open is one of the network and holds no value. -/
theorem Linked.of_mem_unassigned (hnet : net.Linked) (hframe : frame vars = frame net.vars)
    (hx : x ∈ net.unassigned vars c) : x < vars.length ∧ value? vars x = none := by
  obtain ⟨hscope, hnone⟩ := List.mem_filter.mp hx
  refine ⟨?_, by simpa using hnone⟩
  rw [length_eq_of_frame hframe]
  exact hnet.lt_length_of_mem_scope hscope

/-- A constraint on a variable without a value leaves that variable open. -/
theorem Linked.mem_unassigned (hnet : net.Linked) (hframe : frame vars = frame net.vars)
    (hlink : c ∈ links vars x) (hfree : value? vars x = none) : x ∈ net.unassigned vars c := by
  have hx : x < vars.length := by
    rcases Nat.lt_or_ge x vars.length with hx | hx
    · exact hx
    · -- Only a variable that there is lists constraints.
      simp [links, List.getElem?_eq_none hx] at hlink
  rw [links_eq_of_frame hframe] at hlink
  have hscope := (hnet.mem_links (length_eq_of_frame hframe ▸ hx) c).mp hlink
  exact List.mem_filter.mpr ⟨hscope, by simp [hfree]⟩

/-- The constraints on a variable are told by what they mention and leave open. -/
theorem Linked.mem_constraintsWith_iff (hnet : net.Linked) (hframe : frame vars = frame net.vars)
    (hx : x < vars.length) {n : Nat} : c ∈ net.constraintsWith vars x n ↔
      x ∈ (net.constraintAt c).scope ∧ (net.unassigned vars c).length = n := by
  rw [constraintsWith, List.mem_filter, links_eq_of_frame hframe,
    hnet.mem_links (length_eq_of_frame hframe ▸ hx), decide_eq_true_eq]

/-! ## Failures -/

/-- Evaluating the constraint `c` under what the variables hold fails with `e`. -/
def Fails (net : Network) (vars : List Variable) (c : Nat) (e : SolveError) : Prop :=
  e.source = (net.constraintAt c).source ∧ (net.constraintAt c).holds vars = .error e.cause

/-- Evaluating a constraint is quiet and answers its truth value under the values held. -/
theorem check_ensures (net : Network) (c : Nat) (r : Run) :
    (net.check c).Ensures r
      (fun b r' => Quiet r r' ∧ (net.constraintAt c).holds r.vars = .ok b)
      (fun e r' => Quiet r r' ∧ net.Fails r.vars c e) := by
  have hquiet : Quiet r { r with stats := { r.stats with evaluations := r.stats.evaluations + 1 } } :=
    ⟨rfl, rfl, rfl, rfl, rfl, rfl⟩
  cases hc : (net.constraintAt c).holds r.vars with
  | error cause =>
      refine Solver.ensures_of_run_error (e := ⟨(net.constraintAt c).source, cause⟩) ?_ ⟨hquiet, rfl, hc⟩
      simp only [Network.check, hc]
  | ok b =>
      refine Solver.ensures_of_run_ok ?_ ⟨hquiet, rfl⟩
      simp only [Network.check, hc]

/-- A constraint of the network has the failure on values of the domains of its variables. -/
def Genuine (net : Network) (e : SolveError) : Prop :=
  ∃ c ∈ net.constraints, c.source = e.source ∧ ∃ a : Nat → Value,
    (∀ x ∈ c.scope, a x ∈ domain net.vars x) ∧
      (c.expr.eval (c.scope.map a) >>= Constraint.truthOf) = .error e.cause

/-- A constraint without open variables fails only as it does on values of the domains. -/
theorem Fails.genuine {e : SolveError} (h : net.Fails vars c e) (hwithin : net.Within vars)
    (hopen : net.unassigned vars c = []) : net.Genuine e := by
  obtain ⟨hsource, hcause⟩ := h
  have hmem : net.constraintAt c ∈ net.constraints := by
    rw [constraintAt] at hcause ⊢
    cases hc : net.constraints[c]? with
    | some k => exact List.mem_of_getElem? hc
    | none =>
        -- A number that no constraint has stands for one that is true.
        rw [hc] at hcause
        cases hcause
  have hheld : ∀ y ∈ (net.constraintAt c).scope,
      value? vars y = some ((value? vars y).getD (.bool true)) := by
    intro y hy
    obtain ⟨w, hw⟩ := Option.isSome_iff_exists.mp (unassigned_eq_nil_iff.mp hopen y hy)
    rw [hw]
    rfl
  refine ⟨_, hmem, hsource.symm, fun y => (value? vars y).getD (.bool true), ?_, ?_⟩
  · exact fun y hy => hwithin.mem_of_held y _ (hheld y hy)
  · rw [← Constraint.holds_eq_of_held hheld]
    exact hcause

/-- So does a constraint with one open variable on a value for that variable. -/
theorem Fails.genuine_of_assign {e : SolveError} (h : net.Fails (assign vars x v) c e) (hwithin : net.Within vars)
    (hopen : net.unassigned vars c = [x]) (hv : v ∈ domain net.vars x) : net.Genuine e := by
  refine h.genuine (hwithin.assign hv) ?_
  rw [unassigned_assign (hwithin.lt_length hv), hopen]
  simp

end FiniteDomain.Network
