import Mathlib
import FiniteDomain.Proofs.Network.Enumeration
import FiniteDomain.Proofs.Network.Fixpoint
import FiniteDomain.Proofs.Network.Invariant

/-!
# Arc consistency is maintained

With arc consistency after every assignment, whenever the search is called the arcs between the two open variables of a
constraint are consistent, for the constraints that have a variable with a value, and for all if arc consistency was
enforced before the search (`consistent_of_visits`). Propagation starts from the constraints of the assigned variable
and from the variables that node consistency has changed. The arcs of other constraints were consistent at the call
before: the turns between have restored the domains, and they stay consistent or wait in the worklist again.
-/

namespace FiniteDomain.Network

open Variables

variable {net start : Network} {vars : List Variable} {choices : List Choice} {r r₁ r' s : Run} {arc : Arc} {x : Nat}
  {v : Value} {before after : List Value}

/-- Enforcing arc consistency without a conflict settles the arcs that it starts with. -/
theorem settled_of_enforceArc (hnet : net.Linked) {initial : Bool} {cs changed : List Nat}
    (hwithin : net.Within r.vars) (hchanged : ∀ x ∈ changed, value? r.vars x = none)
    (h : (net.enforceArc initial cs changed).run r = (.ok .consistent, r')) :
    net.Settled (net.initialArcs r.vars cs changed) r r' := by
  obtain ⟨r₁, hrun, hvars⟩ := of_run_logging h
  have hsettled := (arcConsistency_workedOff hnet (r := { r with trail := {} }) hwithin.frame hchanged hrun).settled rfl
  intro arc hjoins hcovered
  rw [hvars] at hcovered ⊢
  exact hsettled arc hjoins hcovered

/-! ## The arcs of a constraint -/

/-- The two ends of an arc are the two variables that its constraint leaves open. -/
theorem Arc.Joins.length_unassigned (h : arc.Joins net vars) :
    (net.unassigned vars arc.constraint).length = 2 := by
  rcases h with h | h <;> rw [h] <;> rfl

/-- Which variables a constraint leaves open does not depend on the values of others. -/
theorem Arc.Joins.of_assign (h : arc.Joins net (assign vars x v))
    (hscope : x ∉ (net.constraintAt arc.constraint).scope) : arc.Joins net vars := by
  unfold Arc.Joins at h ⊢
  rwa [unassigned_assign_of_notMem hscope] at h

/-- An arc is consistent whatever value a variable holds that its constraint does not mention. -/
theorem Arc.Consistent.assign (h : arc.Consistent net vars)
    (hscope : x ∉ (net.constraintAt arc.constraint).scope) : arc.Consistent net (assign vars x v) := by
  refine h.of_shrunk length_assign (fun z hz => value?_assign_of_ne ?_) ?_ domain_assign
  · rintro rfl
    exact hscope hz
  · rw [domain_assign]

/-! ## Arc consistency along the calls of the search -/

/-- The arcs of the constraints that have a variable with a value are consistent, and all if they were made so before
the search. -/
def Maintained (net : Network) (vars : List Variable) : Prop :=
  ∀ arc : Arc, arc.Joins net vars →
    (net.config.initialArc = true ∨ ∃ z ∈ (net.constraintAt arc.constraint).scope, (value? vars z).isSome) →
    arc.Consistent net vars

/-- At the first call the arcs are consistent if they were made so before the search: no variable holds a value. -/
theorem maintained_of_opens (hnet : net.Linked) (h : net.Opens r) : net.Maintained r.vars := by
  have hnone : ∀ z, ¬ (value? r.vars z).isSome := by
    intro z hz
    simpa using ((inSearch_of_opens hnet h).chosen z).mp hz
  intro arc hjoins hpremise
  have hinitial : net.config.initialArc = true :=
    hpremise.resolve_right fun ⟨z, _, hz⟩ => hnone z hz
  obtain ⟨s, s', hin, -, hpreprocess, hquiet⟩ := h.exists_preprocessed hnet
  obtain ⟨r₁, hnode, hrun⟩ := of_run_preprocess hpreprocess
  rw [if_pos hinitial] at hrun
  have hprunes : Prunes net s r₁ := prunes_of_enforceNode hnet hin.searching.within
    (fun c hc => length_unassigned_le_of_mem_constraintsOfArity s.vars hc) hnode
  have hwithin₁ := hin.searching.within.of_prunes hprunes
  have hprunes' : Prunes net r₁ s' :=
    ((enforceArc_propagates hnet true _ [] r₁ hwithin₁ (by simp)).of_run_ok hrun).1
  have hsettled := settled_of_enforceArc hnet hwithin₁ (by simp) hrun
  rw [hquiet.vars] at hjoins hnone ⊢
  have hjoins₁ : arc.Joins net r₁.vars := hjoins.congr fun z => (hprunes'.value? z).symm
  -- A constraint with two open variables has no others.
  have hscope : net.unassigned s'.vars arc.constraint = (net.constraintAt arc.constraint).scope :=
    List.filter_eq_self.mpr fun z _ => by simpa using hnone z
  have harity : arc.constraint ∈ net.constraintsOfArity 2 :=
    mem_constraintsOfArity (hscope ▸ hjoins.length_unassigned)
  exact hsettled arc hjoins₁ (.inl (mem_initialArcs hnet hwithin₁.frame hjoins₁ (.inl harity)))

/-- Propagation around a newly assigned variable makes the arcs of its constraints consistent and keeps the others
so. -/
theorem maintained_of_propagate (hnet : net.Linked) (harc : net.config.arc = true)
    (hmaintained : net.Maintained r.vars) (hx : x < r.vars.length) (hvars : s.vars = assign r.vars x v)
    (hwithin : net.Within s.vars) (htrail : s.trail = {})
    (h : (net.propagate x).run s = (.ok .consistent, r')) : net.Maintained r'.vars := by
  obtain ⟨r₁, hnode, hrun⟩ := of_run_propagate h
  rw [if_pos harc] at hrun
  have hprunes : Prunes net s r₁ := prunes_of_enforceNode hnet hwithin
    (fun c hc => Nat.le_of_eq (length_unassigned_of_mem_constraintsWith hc)) hnode
  have hwithin₁ := hwithin.of_prunes hprunes
  have hchanged := hprunes.value?_eq_none_of_changed htrail
  have hprunes' : Prunes net r₁ r' :=
    ((enforceArc_propagates hnet false _ _ r₁ hwithin₁ hchanged).of_run_ok hrun).1
  have hsettled := settled_of_enforceArc hnet hwithin₁ hchanged hrun
  have hvalue : ∀ z, value? r'.vars z = value? (assign r.vars x v) z := by
    intro z
    rw [hprunes'.value?, hprunes.value?, hvars]
  have hlength : r₁.vars.length = r.vars.length := by rw [hprunes.length, hvars, length_assign]
  intro arc hjoins hpremise
  have hjoins_s : arc.Joins net (assign r.vars x v) := hjoins.congr fun z => (hvalue z).symm
  have hjoins₁ : arc.Joins net r₁.vars := Arc.Joins.of_prunes (r := s) (hvars ▸ hjoins_s) hprunes
  refine hsettled arc hjoins₁ ?_
  by_cases hscope : x ∈ (net.constraintAt arc.constraint).scope
  · -- The arcs of the constraints on the variable wait in the worklist from the start.
    have hconstraint : arc.constraint ∈ net.constraintsWith r₁.vars x 2 :=
      (hnet.mem_constraintsWith_iff hwithin₁.frame (hlength.symm ▸ hx)).mpr ⟨hscope, hjoins₁.length_unassigned⟩
    exact .inl (mem_initialArcs hnet hwithin₁.frame hjoins₁ (.inl hconstraint))
  · have hpremise' : net.config.initialArc = true ∨
        ∃ z ∈ (net.constraintAt arc.constraint).scope, (value? r.vars z).isSome := by
      simp only [hvalue] at hpremise
      exact hpremise.imp_right (exists_held_of_assign hscope)
    have hconsistent : arc.Consistent net s.vars :=
      hvars ▸ (hmaintained arc (hjoins_s.of_assign hscope) hpremise').assign hscope
    -- It was consistent before, and unless node consistency has changed its second end it still is.
    by_cases hy : arc.y ∈ r₁.trail.changed
    · exact .inl (mem_initialArcs hnet hwithin₁.frame hjoins₁ (.inr hy))
    · exact .inr (.inl (hconsistent.of_prunes hprunes (hprunes.domain_eq_of_notMem_changed htrail hy)))

/-- Whenever the search is called, arc consistency is maintained. -/
theorem maintained_of_visits (hnet : net.Linked) (harc : net.config.arc = true) (h : net.Visits choices r) :
    net.Maintained r.vars := by
  induction h with
  | opened hopens => exact maintained_of_opens hnet hopens
  | @entered choices r r₁ r' x before after v hvisits hturn henters ih =>
      have hin := inSearch_of_visits hnet hvisits
      obtain ⟨-, hx, -, -⟩ := hin.of_select hnet hturn.select
      obtain ⟨s, hvars, htrail, hin', hpropagate⟩ := hin.exists_propagated hnet hturn henters
      exact maintained_of_propagate hnet harc ih hx hvars hin'.searching.within htrail hpropagate

/-- With arc consistency after every assignment, whenever a solve calls the search and a constraint has two open
variables and one with a value, each value left for either open variable makes the constraint true with a value left
for the other. With arc consistency before the search as well, so it is for every constraint with two open variables. -/
theorem consistent_of_visits (hbuilt : start.Built) (hreaches : start.Reaches net) (harc : net.config.arc = true)
    (h : net.rewound.Visits choices r) {c x y : Nat} (hopen : net.unassigned r.vars c = [x, y])
    (hpremise : net.config.initialArc = true ∨
      ∃ z ∈ (net.constraintAt c).scope, (value? r.vars z).isSome) :
    Arc.Consistent net r.vars ⟨x, y, c⟩ ∧ Arc.Consistent net r.vars ⟨y, x, c⟩ := by
  have hnet : net.rewound.Linked := (hreaches.linked hbuilt).rewound 0 {}
  have hmaintained := maintained_of_visits hnet harc h
  exact ⟨hmaintained ⟨x, y, c⟩ (.inl hopen) hpremise, hmaintained ⟨y, x, c⟩ (.inr hopen) hpremise⟩

/-- Arc consistency after every assignment, the most constrained variable first. -/
def arcwise : Config :=
  { arc := true, heuristic := .mostConstrained }

/-- The state in which a solve of `summing` calls the search first: nothing was checked or removed. -/
def summingOpened : Run where
  vars := summing.vars
  events := [.searchBegun]

/-- When the sum is zero no summand is left but zero, and the two support each other. -/
theorem consistent_of_visits_summing :
    ∃ r, (summing.configure arcwise).rewound.Visits [⟨2, [.int 0, .int 1]⟩] r ∧
      r.vars.map (·.domain) = [[.int 0], [.int 0], [.int 0, .int 1]] ∧
      Arc.Consistent summing r.vars ⟨0, 1, 0⟩ ∧ Arc.Consistent summing r.vars ⟨1, 0, 0⟩ := by
  have hopens : (summing.configure arcwise).rewound.Opens summingOpened :=
    ⟨{ vars := summing.vars }, { vars := summing.vars }, by cbv, by cbv, rfl⟩
  have hturn : Turn (summing.configure arcwise).rewound 0 summingOpened 2 [] [.int 0, .int 1]
      (summingOpened.choose 2) := ⟨by cbv, by cbv, by cbv⟩
  obtain ⟨r, henters, hvars⟩ : ∃ r,
      (summing.configure arcwise).rewound.Enters 2 (.int 0) (summingOpened.choose 2) r ∧
        r.vars = [⟨"A", [.int 0], none, [0]⟩, ⟨"B", [.int 0], none, [0]⟩,
          ⟨"C", [.int 0, .int 1], some (.int 0), [0]⟩] :=
    ⟨_, ⟨_, run_eq_of_fst (by cbv), run_eq_of_fst (by cbv)⟩, by cbv⟩
  have hvisits := Visits.entered (.opened hopens) hturn henters
  have hopen : summing.unassigned r.vars 0 = [0, 1] := by rw [hvars]; rfl
  have hheld : (value? r.vars 2).isSome := by rw [hvars]; rfl
  exact ⟨r, hvisits, by rw [hvars]; rfl, consistent_of_visits built_summing (.configure arcwise .refl) rfl hvisits
    hopen (.inr ⟨2, by decide, hheld⟩)⟩

end FiniteDomain.Network
