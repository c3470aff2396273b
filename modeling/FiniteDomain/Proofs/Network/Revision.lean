import FiniteDomain.Network.ArcConsistency
import FiniteDomain.Proofs.Network.Failures
import FiniteDomain.Proofs.Network.Sifting

/-!
# Revising an arc

An arc is consistent if every value of its first end has a support among those of the second. Revising it looks for
supports by giving values to both ends for the time of an evaluation, which freeing them afterwards restores, and takes
away exactly the values that have none (`Revised`). An arc stays consistent as long as its second end loses no value
(`Consistent.of_shrunk`).
-/

namespace FiniteDomain.Network

open Variables

variable {net : Network} {vars vars' : List Variable} {r r' : Run} {arc : Arc} {v : Value}

/-! ## The ends of an arc -/

/-- The arc's constraint leaves the two ends of the arc open, and no other variable. -/
def Arc.Joins (net : Network) (vars : List Variable) (arc : Arc) : Prop :=
  net.unassigned vars arc.constraint = [arc.x, arc.y] ∨ net.unassigned vars arc.constraint = [arc.y, arc.x]

/-- Which variables are left open shows in the values held alone. -/
theorem Arc.Joins.congr (h : arc.Joins net vars) (hvalue : ∀ x, value? vars' x = value? vars x) :
    arc.Joins net vars' := by
  unfold Arc.Joins
  rw [unassigned_congr hvalue]
  exact h

theorem Arc.Joins.of_prunes (h : arc.Joins net r.vars) (hprunes : Prunes net r r') :
    arc.Joins net r'.vars :=
  h.congr hprunes.value?

theorem Arc.Joins.of_pruned (h : arc.Joins net r'.vars) (hprunes : Prunes net r r') : arc.Joins net r.vars :=
  h.congr fun x => (hprunes.value? x).symm

/-- Both ends of the arc are variables that hold no value, and they differ. -/
structure Arc.Open (vars : List Variable) (arc : Arc) : Prop where
  x_lt : arc.x < vars.length
  y_lt : arc.y < vars.length
  x_free : value? vars arc.x = none
  y_free : value? vars arc.y = none
  ne : arc.x ≠ arc.y

theorem Arc.Open.of_prunes (h : arc.Open r.vars) (hprunes : Prunes net r r') : arc.Open r'.vars :=
  ⟨hprunes.length.symm ▸ h.x_lt, hprunes.length.symm ▸ h.y_lt, (hprunes.value? arc.x).trans h.x_free,
    (hprunes.value? arc.y).trans h.y_free, h.ne⟩

/-- The ends of an arc that are left open are variables without a value. -/
theorem Arc.Joins.isOpen (h : arc.Joins net vars) (hnet : net.Linked)
    (hframe : frame vars = frame net.vars) : arc.Open vars := by
  have hmem : arc.x ∈ net.unassigned vars arc.constraint ∧ arc.y ∈ net.unassigned vars arc.constraint := by
    rcases h with h | h <;> simp [h]
  obtain ⟨hx, hxfree⟩ := hnet.of_mem_unassigned hframe hmem.1
  obtain ⟨hy, hyfree⟩ := hnet.of_mem_unassigned hframe hmem.2
  refine ⟨hx, hy, hxfree, hyfree, ?_⟩
  have hnodup := hnet.nodup_unassigned vars arc.constraint
  rcases h with h | h <;> rw [h] at hnodup
  · exact (List.pairwise_pair.mp hnodup)
  · exact (List.pairwise_pair.mp hnodup).symm

/-! ## Supports -/

/-- Some value left for the second end makes the constraint true together with the value `v` for the first. -/
def Arc.Supports (net : Network) (vars : List Variable) (arc : Arc) (v : Value) : Prop :=
  ∃ w ∈ domain vars arc.y,
    (net.constraintAt arc.constraint).holds (assign (assign vars arc.x v) arc.y w) = .ok true

/-- Every value left for the first end has a support. -/
def Arc.Consistent (net : Network) (vars : List Variable) (arc : Arc) : Prop :=
  ∀ v ∈ domain vars arc.x, arc.Supports net vars v

/-- A value keeps its support as long as the second end loses no value. -/
theorem Arc.Supports.congr (h : arc.Supports net vars v) (hlength : vars'.length = vars.length)
    (hvalue : ∀ z ∈ (net.constraintAt arc.constraint).scope, value? vars' z = value? vars z)
    (hy : domain vars' arc.y = domain vars arc.y) : arc.Supports net vars' v := by
  obtain ⟨w, hw, hholds⟩ := h
  refine ⟨w, hy.symm ▸ hw, ?_⟩
  rw [Constraint.holds_congr ?_ (Constraint.isSome_of_holds hholds)]
  · exact hholds
  · intro z hz
    exact value?_assign_congr (by simpa using hlength) (value?_assign_congr hlength (hvalue z hz))

/-- An arc stays consistent as long as its second end loses no value. -/
theorem Arc.Consistent.of_shrunk (h : arc.Consistent net vars) (hlength : vars'.length = vars.length)
    (hvalue : ∀ z ∈ (net.constraintAt arc.constraint).scope, value? vars' z = value? vars z)
    (hx : (domain vars' arc.x).Sublist (domain vars arc.x)) (hy : domain vars' arc.y = domain vars arc.y) :
    arc.Consistent net vars' :=
  fun v hv => (h v (hx.subset hv)).congr hlength hvalue hy

/-- Pruning that leaves the second end alone keeps an arc consistent. -/
theorem Arc.Consistent.of_prunes (h : arc.Consistent net r.vars) (hprunes : Prunes net r r')
    (hy : domain r'.vars arc.y = domain r.vars arc.y) : arc.Consistent net r'.vars :=
  h.of_shrunk hprunes.length (fun z _ => hprunes.value? z) (hprunes.sublist arc.x) hy

/-- Some values left for the two ends make the evaluation of the constraint fail. -/
def Arc.Fails (net : Network) (vars : List Variable) (arc : Arc) (e : SolveError) : Prop :=
  ∃ v ∈ domain vars arc.x, ∃ w ∈ domain vars arc.y,
    net.Fails (assign (assign vars arc.x v) arc.y w) arc.constraint e

/-- What fails after pruning failed before. -/
theorem Arc.Fails.of_prunes {e : SolveError} (h : arc.Fails net r'.vars e) (hprunes : Prunes net r r') :
    arc.Fails net r.vars e := by
  obtain ⟨v, hv, w, hw, hsource, hcause⟩ := h
  exact ⟨v, (hprunes.sublist arc.x).subset hv, w, (hprunes.sublist arc.y).subset hw, hsource,
    (hprunes.holds_assign_assign _ _ _ v w).symm.trans hcause⟩

/-- An arc between open variables fails only as its constraint does on values of the domains. -/
theorem Arc.Fails.genuine {e : SolveError} (h : arc.Fails net vars e) (hwithin : net.Within vars)
    (hjoins : arc.Joins net vars) (hopen : arc.Open vars) : net.Genuine e := by
  obtain ⟨v, hv, w, hw, hfails⟩ := h
  refine hfails.genuine_of_assign (hwithin.assign (hwithin.mem_domain hv)) ?_ (hwithin.mem_domain hw)
  rw [unassigned_assign hopen.x_lt]
  rcases hjoins with h | h <;> simp [h, hopen.ne.symm]

/-- Looking for a support is quiet once both ends are freed, and its answer is whether a value supports. -/
theorem supportedBy_ensures (net : Network) (arc : Arc) (ws : List Value) (r : Run) :
    (net.supportedBy arc ws).Ensures r
      (fun b r' => Quiet ((r.free arc.x).free arc.y) ((r'.free arc.x).free arc.y) ∧ match b with
        | true => ∃ w ∈ ws, (net.constraintAt arc.constraint).holds (assign r.vars arc.y w) = .ok true
        | false => ∀ w ∈ ws, (net.constraintAt arc.constraint).holds (assign r.vars arc.y w) = .ok false)
      (fun e r' => Quiet ((r.free arc.x).free arc.y) ((r'.free arc.x).free arc.y) ∧
        ∃ w ∈ ws, net.Fails (assign r.vars arc.y w) arc.constraint e) := by
  induction ws generalizing r with
  | nil => exact ⟨Quiet.refl _, by simp⟩
  | cons w ws ih =>
      rw [supportedBy]
      refine Solver.ensures_update_bind (Solver.Ensures.bind ?_)
      -- The two ends are freed in another order than they were given values.
      have hfreed : Quiet ((r.free arc.x).free arc.y) (((r.assign arc.y w).free arc.x).free arc.y) := by
        refine ⟨?_, rfl, rfl, rfl, rfl, rfl⟩
        show free (free (assign r.vars arc.y w) arc.x) arc.y = free (free r.vars arc.x) arc.y
        rw [free_comm, free_assign, free_comm]
      refine (check_ensures net arc.constraint (r.assign arc.y w)).mono ?_ ?_
      · rintro b r₁ ⟨hquiet, hholds⟩
        have hfree₁ := hfreed.trans ((hquiet.free arc.x).free arc.y)
        cases b with
        | true => exact ⟨hfree₁, w, List.mem_cons_self, hholds⟩
        | false =>
            -- The next value takes the place of the one before.
            have hassign : ∀ u, assign r₁.vars arc.y u = assign r.vars arc.y u := by
              intro u
              rw [hquiet.vars]
              exact assign_assign
            refine (ih r₁).mono ?_ ?_
            · rintro b r₂ ⟨hfree₂, hanswer⟩
              refine ⟨hfree₁.trans hfree₂, ?_⟩
              simp only [hassign] at hanswer
              cases b with
              | true =>
                  obtain ⟨u, hu, htrue⟩ := hanswer
                  exact ⟨u, List.mem_cons_of_mem w hu, htrue⟩
              | false => exact List.forall_mem_cons.mpr ⟨hholds, hanswer⟩
            · rintro e r₂ ⟨hfree₂, u, hu, hfails⟩
              exact ⟨hfree₁.trans hfree₂, u, List.mem_cons_of_mem w hu, hassign u ▸ hfails⟩
      · rintro e r₁ ⟨hquiet, hfails⟩
        exact ⟨hfreed.trans ((hquiet.free arc.x).free arc.y), w, List.mem_cons_self, hfails⟩

/-- Looking for a support of a value is quiet. The value has one if it says so, and without one the constraint is false
for every value of the other variable. -/
theorem hasSupport_ensures (net : Network) (v : Value) (hopen : arc.Open r.vars) :
    (net.hasSupport arc v).Ensures r
      (fun b r' => Quiet r r' ∧ match b with
        | true => arc.Supports net r.vars v
        | false => ∀ w ∈ domain r.vars arc.y,
            (net.constraintAt arc.constraint).holds (assign (assign r.vars arc.x v) arc.y w) = .ok false)
      (fun e r' => Quiet r r' ∧ ∃ w ∈ domain r.vars arc.y,
        net.Fails (assign (assign r.vars arc.x v) arc.y w) arc.constraint e) := by
  rw [hasSupport]
  refine Solver.ensures_update_bind (Solver.ensures_look_bind (Solver.Ensures.ensuring ?_))
  have hdom : domain (r.assign arc.x v).vars arc.y = domain r.vars arc.y := domain_assign
  have hfreed : Quiet r (((r.assign arc.x v).free arc.x).free arc.y) := by
    refine ⟨?_, rfl, rfl, rfl, rfl, rfl⟩
    show free (free (assign r.vars arc.x v) arc.x) arc.y = r.vars
    rw [free_assign, free_eq_self hopen.x_free, free_eq_self hopen.y_free]
  refine (supportedBy_ensures net arc _ (r.assign arc.x v)).mono ?_ ?_
  · rintro b r₁ ⟨hquiet, hanswer⟩
    rw [hdom] at hanswer
    exact ⟨hfreed.trans hquiet, hanswer⟩
  · rintro e r₁ ⟨hquiet, hfails⟩
    rw [hdom] at hfails
    exact ⟨hfreed.trans hquiet, hfails⟩

/-- A value without support is used by no satisfying assignment. -/
theorem ne_of_unsupported (hopen : arc.Open r.vars)
    (hnone : ∀ w ∈ domain r.vars arc.y,
      (net.constraintAt arc.constraint).holds (assign (assign r.vars arc.x v) arc.y w) = .ok false)
    {a : Nat → Value} (hs : net.SatisfiedBy a) (ha : Extends a r.vars) : a arc.x ≠ v := by
  intro hv
  have hy : a arc.y ∈ domain r.vars arc.y := ha.mem_domain arc.y hopen.y_lt hopen.y_free
  have hext : Extends a (assign (assign r.vars arc.x v) arc.y (a arc.y)) := (ha.assign hv).assign rfl
  exact Constraint.not_satisfiedBy_of_holds hext (hnone _ hy) (hs.constraintAt _)

/-! ## Revisions -/

instance (net : Network) (vars : List Variable) (arc : Arc) (v : Value) : Decidable (arc.Supports net vars v) :=
  inferInstanceAs (Decidable (∃ w ∈ _, _ = _))

/-- What revising an arc comes to: it prunes, it leaves the other domains alone, and of that of its first end it leaves
the values that have a support, in their order. It says that no value is left only if there was one. -/
structure Revised (net : Network) (arc : Arc) (r : Run) (revision : Revision) (r' : Run) : Prop where
  prunes : Prunes net r r'
  filtered : domain r'.vars arc.x = (domain r.vars arc.x).filter (arc.Supports net r.vars ·)
  domain_eq : ∀ y, y ≠ arc.x → domain r'.vars y = domain r.vars y
  unchanged : revision = .unchanged → r'.vars = r.vars
  emptied : revision = .emptied → domain r'.vars arc.x = []
  nonempty : revision ≠ .emptied → domain r.vars arc.x ≠ [] → domain r'.vars arc.x ≠ []

/-- Whether a value has a support does not show in what pruning takes from other domains. -/
theorem Arc.Supports.iff_of_prunes (hprunes : Prunes net r r') (hy : domain r'.vars arc.y = domain r.vars arc.y) :
    arc.Supports net r'.vars v ↔ arc.Supports net r.vars v := by
  simp only [Arc.Supports, hprunes.holds_assign_assign, hy]

/-- A revised arc is consistent. -/
theorem Revised.consistent {revision : Revision} (h : Revised net arc r revision r') (hne : arc.x ≠ arc.y) :
    arc.Consistent net r'.vars := by
  intro v hv
  rw [h.filtered] at hv
  exact (Arc.Supports.iff_of_prunes h.prunes (h.domain_eq arc.y hne.symm)).mpr
    (of_decide_eq_true (List.mem_filter.mp hv).2)

/-- Revising an arc from a position on keeps its promises, if no domain has turned out empty and `changed` says whether
a value was removed. -/
theorem reviseFrom_ensures (net : Network) (start : Run) (hopen : arc.Open start.vars) (vs : List Value)
    (position : Nat) (changed : Bool) (r : Run)
    (h : Sifting net arc.x (arc.Supports net start.vars ·) start position vs r)
    (hchanged : changed = false → r.vars = start.vars)
    (hnonempty : domain start.vars arc.x ≠ [] → domain r.vars arc.x ≠ []) :
    (net.reviseFrom arc position changed vs).Ensures r (Revised net arc start)
      (fun e r' => Prunes net start r' ∧ arc.Fails net start.vars e) := by
  induction vs generalizing position changed r with
  | nil =>
      rw [reviseFrom]
      refine Solver.ensures_pure ⟨h.prunes, h.domain_eq_filter, h.domain_eq, ?_, ?_, fun _ => hnonempty⟩
      · cases changed <;> simp_all
      · cases changed <;> simp
  | cons v vs ih =>
      rw [reviseFrom]
      have hopen' := hopen.of_prunes h.prunes
      refine Solver.Ensures.bind ((hasSupport_ensures net v hopen').mono ?_ ?_)
      · rintro b r₁ ⟨hquiet, hanswer⟩
        have h₁ := h.quiet hquiet
        have hsupports := Arc.Supports.iff_of_prunes (v := v) h.prunes (h.domain_eq arc.y hopen.ne.symm)
        cases b with
        | true =>
            refine ih (position + 1) changed r₁ (h₁.keep (decide_eq_true (hsupports.mp hanswer))) ?_ ?_ <;>
              rw [hquiet.vars]
            · exact hchanged
            · exact hnonempty
        | false =>
            have hunsupported : ¬ arc.Supports net start.vars v := by
              rw [← hsupports]
              rintro ⟨w, hw, htrue⟩
              rw [hanswer w hw] at htrue
              cases htrue
            have hopen₁ := hopen.of_prunes h₁.prunes
            rw [← hquiet.vars] at hanswer
            have h₂ := h₁.remove (decide_eq_false hunsupported) (prunes_removeValue (getElem?_of_drop h₁.drop)
              hopen₁.x_free fun a hs ha => ne_of_unsupported hopen₁ hanswer hs ha)
            refine Solver.ensures_update_bind (Solver.ensures_look_bind ?_)
            by_cases hd : (domain (r₁.removeValue arc.x position).vars arc.x).isEmpty
            · rw [if_pos hd]
              have hnil := List.isEmpty_iff.mp hd
              refine ⟨h₂.prunes, ?_, h₂.domain_eq, by simp, fun _ => hnil, fun h => absurd rfl h⟩
              rw [← h₂.filter, hnil]
              rfl
            · rw [if_neg hd]
              exact ih position true _ h₂ (by simp) fun _ hnil => hd (by simp [hnil])
      · rintro e r₁ ⟨hquiet, w, hw, hfails⟩
        refine ⟨h.prunes.trans hquiet.prunes, ?_⟩
        exact Arc.Fails.of_prunes ⟨v, List.mem_of_getElem? (getElem?_of_drop h.drop), w, hw, hfails⟩ h.prunes

theorem revise_ensures (net : Network) (hopen : arc.Open r.vars) :
    (net.revise arc).Ensures r (Revised net arc r) (fun e r' => Prunes net r r' ∧ arc.Fails net r.vars e) :=
  Solver.ensures_look_bind
    (reviseFrom_ensures net r hopen _ 0 false r (Sifting.refl net arc.x _ r) (fun _ => rfl) fun h => h)

end FiniteDomain.Network
