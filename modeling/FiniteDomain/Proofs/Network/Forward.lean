import Mathlib
import FiniteDomain.Proofs.Network.Enumeration
import FiniteDomain.Proofs.Network.Invariant

/-!
# Forward checking

With node consistency after every assignment, whenever the search is called every value left for the last open variable
of a constraint makes it true, if the constraint has a variable with a value, or if node consistency was enforced before
the search. So the check of the constraints that a value completes can find a violation only in a constraint on the one
variable, and none at all with node consistency before the search (`admits_of_visits`).

When the last variable but one of a constraint is assigned, propagation filters the last one. Until that one is chosen
its domain only gets smaller: what is put back between two calls is what was removed after the filtering.
-/

namespace FiniteDomain.Network

open Variables

variable {net start : Network} {vars : List Variable} {choices : List Choice} {r r₁ r' s : Run} {c x : Nat} {v : Value}
  {before after : List Value}

/-! ## Node consistency along the calls of the search -/

/-- The constraints that have a variable with a value are node consistent, and all if they were made so before the
search. -/
def Forward (net : Network) (vars : List Variable) : Prop :=
  ∀ c, (net.config.initialNode = true ∨ ∃ z ∈ (net.constraintAt c).scope, (value? vars z).isSome) →
    net.NodeConsistent vars c

/-- A constraint is node consistent whatever value a variable holds that it does not mention. -/
theorem NodeConsistent.assign (h : net.NodeConsistent vars c) (hscope : x ∉ (net.constraintAt c).scope) :
    net.NodeConsistent (assign vars x v) c := by
  intro y hopen w hw
  rw [unassigned_assign_of_notMem hscope] at hopen
  rw [domain_assign] at hw
  refine (h y hopen w hw).congr length_assign fun z hz => value?_assign_of_ne ?_
  rintro rfl
  exact hscope hz

/-- Enforcing node consistency without a conflict makes the constraints node consistent. -/
theorem nodeConsistent_of_enforceNode (hnet : net.Linked) {initial : Bool} {cs : List Nat}
    (hwithin : net.Within r.vars) (hcs : ∀ c ∈ cs, (net.unassigned r.vars c).length ≤ 1)
    (h : (net.enforceNode initial cs).run r = (.ok .consistent, r')) :
    ∀ c ∈ cs, net.NodeConsistent r'.vars c := by
  obtain ⟨r₁, hrun, hvars⟩ := of_run_enforceNode h
  rw [hvars]
  exact ((nodeConsistency_ensures hnet cs r hwithin.frame hcs).of_run_ok hrun).nodeConsistent rfl

/-- At the first call constraints are node consistent if they were made so before the search: no variable holds a
value. -/
theorem forward_of_opens (hnet : net.Linked) (h : net.Opens r) : net.Forward r.vars := by
  have hnone : ∀ z, ¬ (value? r.vars z).isSome := by
    intro z hz
    simpa using ((inSearch_of_opens hnet h).chosen z).mp hz
  obtain ⟨s, s', hin, -, hpreprocess, hquiet⟩ := h.exists_preprocessed hnet
  obtain ⟨r₁, hnode, hrun⟩ := of_run_preprocess hpreprocess
  have hunary : ∀ c ∈ net.constraintsOfArity 1, (net.unassigned s.vars c).length ≤ 1 :=
    fun c hc => length_unassigned_le_of_mem_constraintsOfArity s.vars hc
  have hprunes : Prunes net s r₁ := prunes_of_enforceNode hnet hin.searching.within hunary hnode
  have hprunes' : Prunes net r₁ s' :=
    prunes_of_enforceArc hnet (hin.searching.within.of_prunes hprunes) (by simp) hrun
  rw [hquiet.vars] at hnone ⊢
  intro c hpremise y hopen
  have hinitial : net.config.initialNode = true := hpremise.resolve_right fun ⟨z, _, hz⟩ => hnone z hz
  rw [if_pos hinitial] at hnode
  -- A constraint with one open variable has no others.
  have hscope : net.unassigned s'.vars c = (net.constraintAt c).scope :=
    List.filter_eq_self.mpr fun z _ => by simpa using hnone z
  have harity : c ∈ net.constraintsOfArity 1 := mem_constraintsOfArity (by rw [← hscope, hopen]; rfl)
  exact (nodeConsistent_of_enforceNode hnet hin.searching.within hunary hnode c harity).of_prunes hprunes' y hopen

/-- Propagation around a newly assigned variable makes its constraints node consistent and keeps the others so. -/
theorem forward_of_propagate (hnet : net.Linked) (hconfig : net.config.node = true) (hforward : net.Forward r.vars)
    (hx : x < r.vars.length) (hvars : s.vars = assign r.vars x v) (hwithin : net.Within s.vars)
    (htrail : s.trail = {}) (h : (net.propagate x).run s = (.ok .consistent, r')) : net.Forward r'.vars := by
  obtain ⟨r₁, hnode, hrun⟩ := of_run_propagate h
  have hunary : ∀ c ∈ net.constraintsWith s.vars x 1, (net.unassigned s.vars c).length ≤ 1 :=
    fun c hc => Nat.le_of_eq (length_unassigned_of_mem_constraintsWith hc)
  have hprunes : Prunes net s r₁ := prunes_of_enforceNode hnet hwithin hunary hnode
  have hprunes' : Prunes net r₁ r' :=
    prunes_of_enforceArc hnet (hwithin.of_prunes hprunes) (hprunes.value?_eq_none_of_changed htrail) hrun
  have hvalue : ∀ z, value? r'.vars z = value? (assign r.vars x v) z := by
    intro z
    rw [hprunes'.value?, hprunes.value?, hvars]
  rw [if_pos hconfig] at hnode
  intro c hpremise
  by_cases hscope : x ∈ (net.constraintAt c).scope
  · intro y hopen
    -- A constraint on the variable that leaves one more open is among those that are filtered for.
    have hmem : c ∈ net.constraintsWith s.vars x 1 := by
      refine (hnet.mem_constraintsWith_iff hwithin.frame (by rwa [hvars, length_assign])).mpr ⟨hscope, ?_⟩
      rw [hvars, ← unassigned_congr hvalue, hopen]
      rfl
    exact (nodeConsistent_of_enforceNode hnet hwithin hunary hnode c hmem).of_prunes hprunes' y hopen
  · have hpremise' : net.config.initialNode = true ∨
        ∃ z ∈ (net.constraintAt c).scope, (value? r.vars z).isSome := by
      simp only [hvalue] at hpremise
      exact hpremise.imp_right (exists_held_of_assign hscope)
    have hbefore : net.NodeConsistent s.vars c := hvars ▸ (hforward c hpremise').assign hscope
    exact (hbefore.of_prunes hprunes).of_prunes hprunes'

/-- Whenever the search is called, forward checking is complete. -/
theorem forward_of_visits (hnet : net.Linked) (hconfig : net.config.node = true) (h : net.Visits choices r) :
    net.Forward r.vars := by
  induction h with
  | opened hopens => exact forward_of_opens hnet hopens
  | @entered choices r r₁ r' x before after v hvisits hturn henters ih =>
      have hin := inSearch_of_visits hnet hvisits
      obtain ⟨-, hx, -, -⟩ := hin.of_select hnet hturn.select
      obtain ⟨s, hvars, htrail, hin', hpropagate⟩ := hin.exists_propagated hnet hturn henters
      exact forward_of_propagate hnet hconfig ih hx hvars hin'.searching.within htrail hpropagate

/-! ## Values that are tried -/

/-- What is checked does not depend on the counters. -/
theorem allHold_rewound (net : Network) (cs : List Nat) : net.rewound.allHold cs = net.allHold cs := by
  induction cs with
  | nil => rfl
  | cons c cs ih =>
      rw [allHold, allHold, ih]
      rfl

/-- Constraints that are true are found to be so. -/
theorem run_allHold_of_holds {cs : List Nat} (h : ∀ c ∈ cs, (net.constraintAt c).holds r.vars = .ok true) :
    ∃ r', (net.allHold cs).run r = (.ok true, r') := by
  induction cs generalizing r with
  | nil => exact ⟨r, rfl⟩
  | cons c cs ih =>
      have hcheck : (net.check c).run r
          = (.ok true, { r with stats := { r.stats with evaluations := r.stats.evaluations + 1 } }) := by
        simp only [check, h c List.mem_cons_self]
      rw [allHold, Solver.run_bind_ok hcheck, if_pos rfl]
      exact ih fun d hd => h d (List.mem_cons_of_mem c hd)

/-- The constraints that a value for `x` completes are those of which `x` was the only open variable. -/
theorem unassigned_of_mem_constraintsWith_assign (hnet : net.Linked) (hframe : frame vars = frame net.vars)
    (hx : x < vars.length) (hfree : value? vars x = none) (hc : c ∈ net.constraintsWith (assign vars x v) x 0) :
    net.unassigned vars c = [x] := by
  obtain ⟨hscope, hlength⟩ :=
    (hnet.mem_constraintsWith_iff (frame_assign.trans hframe) (by rwa [length_assign])).mp hc
  have hmem : x ∈ net.unassigned vars c := List.mem_filter.mpr ⟨hscope, by simp [hfree]⟩
  have hothers : ∀ y ∈ net.unassigned vars c, y = x := by
    rw [unassigned_assign hx, List.length_eq_zero_iff, List.filter_eq_nil_iff] at hlength
    intro y hy
    simpa using hlength y hy
  refine List.perm_singleton.mp
    ((List.perm_ext_iff_of_nodup (hnet.nodup_unassigned vars c) (List.nodup_singleton x)).mpr fun y => ?_)
  rw [List.mem_singleton]
  exact ⟨hothers y, fun h => h ▸ hmem⟩

/-- A constraint with one open variable that mentions more has a variable with a value. -/
theorem exists_held_of_unassigned (hopen : net.unassigned vars c = [x]) (harity : 2 ≤ (net.constraintAt c).arity) :
    ∃ z ∈ (net.constraintAt c).scope, (value? vars z).isSome := by
  by_contra hnone
  push Not at hnone
  have hall : net.unassigned vars c = (net.constraintAt c).scope :=
    List.filter_eq_self.mpr fun z hz => by simpa using hnone z hz
  rw [Constraint.arity, ← hall, hopen, List.length_singleton] at harity
  omega

/-- The constraints that a value completes are true, those on its variable alone set aside unless they were made node
consistent before the search. -/
theorem Forward.holds_of_turn (hnet : net.Linked) (hin : net.InSearch choices r) (hforward : net.Forward r.vars)
    (hturn : net.Turn choices.length r x before (v :: after) r₁)
    (hc : c ∈ net.constraintsWith (assign r₁.vars x v) x 0)
    (hpremise : net.config.initialNode = true ∨ 2 ≤ (net.constraintAt c).arity) :
    (net.constraintAt c).holds (assign r₁.vars x v) = .ok true := by
  obtain ⟨-, hx, hfree, -⟩ := hin.of_select hnet hturn.select
  -- The last value tried is overwritten.
  have hassign : assign r₁.vars x v = assign r.vars x v := by rw [← (hin.turn hnet hturn).1, assign_free]
  rw [hassign] at hc ⊢
  have hopen := unassigned_of_mem_constraintsWith_assign hnet hin.searching.within.frame hx hfree hc
  have hv : v ∈ domain r.vars x := by
    rw [hturn.domain]
    simp
  exact hforward c (hpremise.imp_right (exists_held_of_unassigned hopen)) x hopen v hv

/-- What is found in conflict with a value is a constraint on its variable alone. -/
theorem Forward.exists_of_conflict (hnet : net.Linked) (hin : net.InSearch choices r) (hforward : net.Forward r.vars)
    (hturn : net.Turn choices.length r x before (v :: after) r₁)
    (hconflict : ((net.allHold (net.constraintsWith (assign r₁.vars x v) x 0)).run (r₁.assigning x v)).1
      = .ok false) :
    ∃ c ∈ net.constraintsWith (assign r₁.vars x v) x 0, (net.constraintAt c).scope = [x] ∧
      (net.constraintAt c).holds (assign r₁.vars x v) = .ok false := by
  obtain ⟨-, hx, -, -⟩ := hin.of_select hnet hturn.select
  have hassign : assign r₁.vars x v = assign r.vars x v := by rw [← (hin.turn hnet hturn).1, assign_free]
  have hv : v ∈ domain net.vars x := by
    refine hin.searching.within.mem_domain ?_
    rw [hturn.domain]
    simp
  have hwithin : net.Within (r₁.assigning x v).vars :=
    (show (r₁.assigning x v).vars = assign r.vars x v from hassign) ▸ hin.searching.within.assign hv
  have hcomplete : ∀ c ∈ net.constraintsWith (assign r₁.vars x v) x 0,
      net.unassigned (r₁.assigning x v).vars c = [] :=
    fun c hc => List.length_eq_zero_iff.mp (length_unassigned_of_mem_constraintsWith hc)
  obtain ⟨-, c, hc, hfalse⟩ := (allHold_ensures _ _ hwithin hcomplete).of_run_ok (run_eq_of_fst hconflict)
  refine ⟨c, hc, ?_, hfalse⟩
  have hscope : x ∈ (net.constraintAt c).scope :=
    ((hnet.mem_constraintsWith_iff hwithin.frame (by rw [hwithin.length, ← hin.searching.length]; exact hx)).mp hc).1
  -- The constraints on more variables are true.
  have harity : (net.constraintAt c).arity ≤ 1 := by
    by_contra hmore
    have htrue := hforward.holds_of_turn hnet hin hturn hc (.inr (by omega))
    rw [show (net.constraintAt c).holds (assign r₁.vars x v) = .ok false from hfalse] at htrue
    cases htrue
  have hpos : 0 < (net.constraintAt c).scope.length := List.length_pos_of_mem hscope
  obtain ⟨y, hy⟩ := List.length_eq_one_iff.mp (Nat.le_antisymm harity hpos)
  rw [hy, List.mem_singleton] at hscope
  rw [hy, hscope]

/-- With node consistency after every assignment, whenever a solve calls the search and a constraint has one open
variable and one with a value, each value left for the open variable makes the constraint true. So no value that is
tried violates a constraint on more variables than its own: what is found in conflict with it is a constraint on that
variable alone, and nothing is with node consistency before the search as well. -/
theorem admits_of_visits (hbuilt : start.Built) (hreaches : start.Reaches net) (hconfig : net.config.node = true)
    (h : net.rewound.Visits choices r) :
    (∀ c x, net.unassigned r.vars c = [x] → (∃ z ∈ (net.constraintAt c).scope, (value? r.vars z).isSome) →
      ∀ v ∈ domain r.vars x, net.Admits r.vars c x v) ∧
    ∀ x before v after r₁, net.rewound.Turn choices.length r x before (v :: after) r₁ →
      (∀ c ∈ net.constraintsWith (assign r₁.vars x v) x 0, 2 ≤ (net.constraintAt c).arity →
        (net.constraintAt c).holds (assign r₁.vars x v) = .ok true) ∧
      (((net.allHold (net.constraintsWith (assign r₁.vars x v) x 0)).run (r₁.assigning x v)).1 = .ok false →
        ∃ c ∈ net.constraintsWith (assign r₁.vars x v) x 0, (net.constraintAt c).scope = [x] ∧
          (net.constraintAt c).holds (assign r₁.vars x v) = .ok false) ∧
      (net.config.initialNode = true →
        ((net.allHold (net.constraintsWith (assign r₁.vars x v) x 0)).run (r₁.assigning x v)).1 = .ok true) := by
  have hnet : net.rewound.Linked := (hreaches.linked hbuilt).rewound 0 {}
  have hforward : net.rewound.Forward r.vars := forward_of_visits hnet hconfig h
  have hin : net.rewound.InSearch choices r := inSearch_of_visits hnet h
  refine ⟨fun c x hopen hpremise => hforward c (.inr hpremise) x hopen, ?_⟩
  intro x before v after r₁ hturn
  have hholds : ∀ c ∈ net.rewound.constraintsWith (assign r₁.vars x v) x 0,
      net.rewound.config.initialNode = true ∨ 2 ≤ (net.rewound.constraintAt c).arity →
        (net.rewound.constraintAt c).holds (assign r₁.vars x v) = .ok true :=
    fun c hc hpremise => hforward.holds_of_turn hnet hin hturn hc hpremise
  have hconflict := hforward.exists_of_conflict hnet hin hturn
  rw [allHold_rewound] at hconflict
  refine ⟨fun c hc harity => hholds c hc (.inr harity), hconflict, ?_⟩
  intro hinitial
  have htrue : ∀ c ∈ net.constraintsWith (assign r₁.vars x v) x 0,
      (net.constraintAt c).holds (r₁.assigning x v).vars = .ok true :=
    fun c hc => hholds c hc (.inl hinitial)
  obtain ⟨r₂, hrun⟩ := run_allHold_of_holds htrue
  rw [hrun]

/-- Node consistency before the search and after every assignment, and the variable with the fewest values next. -/
def foresighted : Config :=
  { initialNode := true, node := true, heuristic := .fewestValues }

/-- When both summands are zero the sum is the only variable left, with the one value that makes the constraint true;
it is tried without a conflict. -/
theorem admits_of_visits_summing :
    ∃ r, (summing.configure foresighted).rewound.Visits [⟨1, [.int 0, .int 1]⟩, ⟨0, [.int 0, .int 1]⟩] r ∧
      summing.unassigned r.vars 0 = [2] ∧ domain r.vars 2 = [.int 0] ∧ summing.Admits r.vars 0 2 (.int 0) ∧
      ∃ r₁, (summing.configure foresighted).rewound.Turn 2 r 2 [] [.int 0] r₁ ∧
        (((summing.configure foresighted).allHold
          ((summing.configure foresighted).constraintsWith (assign r₁.vars 2 (.int 0)) 2 0)).run
            (r₁.assigning 2 (.int 0))).1 = .ok true := by
  have hvisits : ∃ r, (summing.configure foresighted).rewound.Visits
      [⟨1, [.int 0, .int 1]⟩, ⟨0, [.int 0, .int 1]⟩] r ∧
      r.vars = [⟨"A", [.int 0, .int 1], some (.int 0), [0]⟩, ⟨"B", [.int 0, .int 1], some (.int 0), [0]⟩,
        ⟨"C", [.int 0], none, [0]⟩] ∧ r.assigned = 2 :=
    ⟨_, .entered
      (.entered (.opened ⟨_, _, run_eq_of_fst (by cbv), run_eq_of_fst (by cbv), rfl⟩)
        (⟨by cbv, by cbv, run_eq_of_fst (by cbv)⟩ : Turn _ 0 _ 0 [] [.int 0, .int 1] _)
        ⟨_, run_eq_of_fst (by cbv), run_eq_of_fst (by cbv)⟩)
      (⟨by cbv, by cbv, run_eq_of_fst (by cbv)⟩ : Turn _ 1 _ 1 [] [.int 0, .int 1] _)
      ⟨_, run_eq_of_fst (by cbv), run_eq_of_fst (by cbv)⟩, by cbv, by cbv⟩
  obtain ⟨r, hvisits, hvars, hassigned⟩ := hvisits
  have hturn : (summing.configure foresighted).rewound.Turn 2 r 2 [] [.int 0] (r.choose 2) :=
    ⟨by rw [hvars, hassigned]; rfl, by rw [hvars]; rfl, rfl⟩
  have hopen : summing.unassigned r.vars 0 = [2] := by rw [hvars]; rfl
  have hdomain : domain r.vars 2 = [.int 0] := by rw [hvars]; rfl
  obtain ⟨hadmits, htried⟩ := admits_of_visits built_summing (.configure foresighted .refl) rfl hvisits
  refine ⟨r, hvisits, hopen, hdomain, ?_, r.choose 2, hturn, ?_⟩
  · exact hadmits 0 2 hopen ⟨0, by decide, by rw [hvars]; rfl⟩ (.int 0) (by simp [hdomain])
  · exact (htried 2 [] (.int 0) [] (r.choose 2) hturn).2.2 rfl

end FiniteDomain.Network
