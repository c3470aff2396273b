import FiniteDomain.Proofs.Network.Ensures
import FiniteDomain.Proofs.Network.Linked
import FiniteDomain.Proofs.Network.Satisfaction

/-!
# Pruning

A step of a solve is quiet if it changes nothing but the log and the number of evaluations. It prunes if,
beyond that, it takes values out of the domains of variables without a value such that

* the trail records exactly the removals made, and so undoes them, domain order included;
* no satisfying assignment that extended the variables before is lost (`Prunes.keeps`).

Both are closed under composition, and removing one value prunes if no satisfying assignment uses it
(`prunes_removeValue`); everything that propagation does is put together from these.
-/

namespace FiniteDomain

open Variables

/-! ## Quiet steps -/

/-- Nothing but the log and the number of evaluations differs. -/
structure Quiet (r r' : Run) : Prop where
  vars : r'.vars = r.vars
  trail : r'.trail = r.trail
  assigned : r'.assigned = r.assigned
  solutions : r'.solutions = r.solutions
  found : r'.stats.solutions = r.stats.solutions
  states : r'.stats.states = r.stats.states

namespace Quiet

variable {r r' r'' : Run}

theorem refl (r : Run) : Quiet r r :=
  ⟨rfl, rfl, rfl, rfl, rfl, rfl⟩

theorem trans (h : Quiet r r') (h' : Quiet r' r'') : Quiet r r'' :=
  ⟨h'.vars.trans h.vars, h'.trail.trans h.trail, h'.assigned.trans h.assigned,
    h'.solutions.trans h.solutions, h'.found.trans h.found, h'.states.trans h.states⟩

/-- Freeing a variable afterwards does not tell quiet states apart. -/
theorem free (h : Quiet r r') (x : Nat) : Quiet (r.free x) (r'.free x) :=
  ⟨congrArg (Variables.free · x) h.vars, h.trail, h.assigned, h.solutions, h.found, h.states⟩

/-- Logging is quiet. -/
theorem events (r : Run) (es : List Event) : Quiet r { r with events := es } :=
  ⟨rfl, rfl, rfl, rfl, rfl, rfl⟩

end Quiet

/-- Logging what a trail removed is quiet. -/
theorem quiet_logTrail (initial : Bool) (kind : Consistency) (t : Trail) (r : Run) :
    Quiet r (Solver.logTrail initial kind t r) := by
  unfold Solver.logTrail
  induction t.byVariable generalizing r with
  | nil => exact Quiet.refl r
  | cons entry entries ih =>
      rw [List.foldl_cons]
      exact (Quiet.events r _).trans (ih _)

/-! ## Undoing -/

namespace Trail

/-- Erasing an item and inserting it at the same place changes nothing. -/
theorem insertIdx_eraseIdx_self {α : Type} {as : List α} {i : Nat} {a : α} (h : as[i]? = some a) :
    (as.eraseIdx i).insertIdx i a = as := by
  induction as generalizing i with
  | nil => simp at h
  | cons b as ih =>
      cases i with
      | zero => simpa using h.symm
      | succ i => simpa using ih (by simpa using h)

/-- A value that is put back where it was removed leaves the variables as they were. -/
theorem restore_mapDomain_eraseIdx {vars : List Variable} {x position : Nat} {v : Value}
    (h : (domain vars x)[position]? = some v) :
    restore (mapDomain vars x (·.eraseIdx position)) ⟨x, position, v⟩ = vars :=
  mapDomain_mapDomain_eq_self _ _ (insertIdx_eraseIdx_self h)

/-- Reverting leaves the domains alone from which nothing was removed. -/
theorem domain_revert_of_notMem {x : Nat} (ms : List Removal) (vars : List Variable)
    (h : ∀ m ∈ ms, m.variableNumber ≠ x) : domain (revert ⟨ms⟩ vars) x = domain vars x := by
  unfold revert
  induction ms generalizing vars with
  | nil => rfl
  | cons m ms ih =>
      rw [List.foldl_cons, ih _ fun m' hm' => h m' (List.mem_cons_of_mem m hm')]
      exact domain_mapDomain_of_ne _ (h m List.mem_cons_self).symm

/-- The removals, the latest first, are those that lead from the variables to others: each was made at its position,
where its value stood. -/
inductive Leads (vars : List Variable) : List Removal → List Variable → Prop where
  | refl : Leads vars [] vars
  | remove {ms : List Removal} {vars' : List Variable} {x position : Nat} {v : Value} :
      Leads vars ms vars' → (domain vars' x)[position]? = some v →
        Leads vars (⟨x, position, v⟩ :: ms) (mapDomain vars' x (·.eraseIdx position))

namespace Leads

variable {vars vars' vars'' : List Variable} {earlier later ms : List Removal}

/-- Removals that follow others lead on. -/
theorem trans (h : Leads vars earlier vars') (h' : Leads vars' later vars'') :
    Leads vars (later ++ earlier) vars'' := by
  induction h' with
  | refl => exact h
  | remove _ hget ih => exact .remove ih hget

/-- Reverting the removals leads back. -/
theorem revert_eq (h : Leads vars ms vars') : revert ⟨ms⟩ vars' = vars := by
  induction h with
  | refl => rfl
  | remove _ hget ih =>
      rw [revert, List.foldl_cons, restore_mapDomain_eraseIdx hget]
      exact ih

end Leads

end Trail

/-! ## Pruning steps -/

/-- Values are taken out of domains of variables without a value, none that a satisfying assignment uses, and the
trail records exactly the removals made. -/
structure Prunes (net : Network) (r r' : Run) : Prop where
  frame : frame r'.vars = frame r.vars
  value? : ∀ x, value? r'.vars x = value? r.vars x
  sublist : ∀ x, (domain r'.vars x).Sublist (domain r.vars x)
  logged : ∃ added, r'.trail.removals = added ++ r.trail.removals ∧
    (∀ m ∈ added, Variables.value? r.vars m.variableNumber = none) ∧ Trail.Leads r.vars added r'.vars
  assigned : r'.assigned = r.assigned
  solutions : r'.solutions = r.solutions
  found : r'.stats.solutions = r.stats.solutions
  states : r'.stats.states = r.stats.states
  keeps : ∀ a, net.SatisfiedBy a → Extends a r.vars → Extends a r'.vars

variable {net : Network} {r r' r'' : Run}

/-- A quiet step prunes nothing. -/
theorem Quiet.prunes (h : Quiet r r') : Prunes net r r' := by
  refine ⟨?_, ?_, ?_, ⟨[], by simp [h.trail], by simp, h.vars ▸ .refl⟩, h.assigned, h.solutions, h.found,
    h.states, ?_⟩
  · rw [h.vars]
  · intro x
    rw [h.vars]
  · intro x
    exact h.vars ▸ List.Sublist.refl _
  · intro a _ ha
    rwa [h.vars]

namespace Prunes

theorem refl (net : Network) (r : Run) : Prunes net r r :=
  (Quiet.refl r).prunes

/-- One pruning after the other is pruning. -/
theorem trans (h : Prunes net r r') (h' : Prunes net r' r'') : Prunes net r r'' := by
  obtain ⟨added, htrail, hfree, hleads⟩ := h.logged
  obtain ⟨added', htrail', hfree', hleads'⟩ := h'.logged
  refine ⟨h'.frame.trans h.frame, fun x => (h'.value? x).trans (h.value? x),
    fun x => (h'.sublist x).trans (h.sublist x), ⟨added' ++ added, ?_, ?_, hleads.trans hleads'⟩,
    h'.assigned.trans h.assigned, h'.solutions.trans h.solutions, h'.found.trans h.found,
    h'.states.trans h.states, fun a hs ha => h'.keeps a hs (h.keeps a hs ha)⟩
  · rw [htrail', htrail, List.append_assoc]
  · -- Pruning gives no variable a value, so what is free later was free before.
    intro m hm
    rcases List.mem_append.mp hm with hm | hm
    · rw [← h.value?]
      exact hfree' m hm
    · exact hfree m hm

theorem length (h : Prunes net r r') : r'.vars.length = r.vars.length :=
  length_eq_of_frame h.frame

/-- What a constraint comes to with a value given to a variable does not show what was pruned. -/
theorem holds_assign (h : Prunes net r r') (k : Constraint) (x : Nat) (v : Value) :
    k.holds (assign r'.vars x v) = k.holds (assign r.vars x v) :=
  Constraint.holds_eq_of_frame (by simp [h.frame]) fun z => value?_assign_congr h.length (h.value? z)

theorem holds_assign_assign (h : Prunes net r r') (k : Constraint) (x y : Nat) (v w : Value) :
    k.holds (assign (assign r'.vars x v) y w) = k.holds (assign (assign r.vars x v) y w) :=
  Constraint.holds_eq_of_frame (by simp [h.frame]) fun z =>
    value?_assign_congr (by simpa using h.length) (value?_assign_congr h.length (h.value? z))

/-- What extends the variables after pruning extends them before. -/
theorem extends_of_extends {a : Nat → Value} (h : Prunes net r r') (ha : Extends a r'.vars) :
    Extends a r.vars := by
  constructor
  · intro x v hv
    exact ha.held x v (by rw [h.value?, hv])
  · intro x hx hfree
    exact (h.sublist x).subset (ha.mem_domain x (h.length ▸ hx) (by rw [h.value?, hfree]))

/-- What is pruned with a trail of its own, which then joins the trail around it, is pruned. -/
theorem of_joined (h : Prunes net { r with trail := {} } r') :
    Prunes net r { r' with trail := r.trail ++ r'.trail } := by
  obtain ⟨added, htrail, hfree, hleads⟩ := h.logged
  refine ⟨h.frame, h.value?, h.sublist, ⟨added, ?_, hfree, hleads⟩, h.assigned, h.solutions, h.found,
    h.states, h.keeps⟩
  rw [List.append_nil] at htrail
  exact congrArg (· ++ r.trail.removals) htrail

/-- Reverting what was pruned with a new trail gives the variables before. -/
theorem revert_eq (h : Prunes net r r') (htrail : r.trail = {}) :
    r'.trail.revert r'.vars = r.vars := by
  obtain ⟨added, ht, -, hleads⟩ := h.logged
  rw [htrail, List.append_nil] at ht
  rw [← hleads.revert_eq, ← ht]

/-- Pruning leaves the domain of a variable that holds a value alone. -/
theorem domain_eq_of_held (h : Prunes net r r') {x : Nat} (hx : (Variables.value? r.vars x).isSome) :
    domain r'.vars x = domain r.vars x := by
  obtain ⟨added, -, hfree, hleads⟩ := h.logged
  rw [← hleads.revert_eq]
  refine (Trail.domain_revert_of_notMem added r'.vars ?_).symm
  rintro m hm rfl
  rw [hfree m hm] at hx
  cases hx

/-- Only the domains of the variables that a new trail names lose values. -/
theorem domain_eq_of_notMem_changed (h : Prunes net r r') (htrail : r.trail = {}) {x : Nat}
    (hx : x ∉ r'.trail.changed) : domain r'.vars x = domain r.vars x := by
  rw [← h.revert_eq htrail]
  refine (Trail.domain_revert_of_notMem r'.trail.removals r'.vars fun m hm hmx => hx ?_).symm
  rw [Trail.changed, List.mem_eraseDups]
  exact List.mem_map.mpr ⟨m, List.mem_reverse.mpr hm, hmx⟩

/-- The variables that lose a value while a new trail is kept hold no value. -/
theorem value?_eq_none_of_changed (h : Prunes net r r') (htrail : r.trail = {}) :
    ∀ x ∈ r'.trail.changed, Variables.value? r'.vars x = none := by
  obtain ⟨added, ht, hfree, -⟩ := h.logged
  rw [htrail, List.append_nil] at ht
  intro x hx
  rw [Trail.changed, List.mem_eraseDups, ht] at hx
  obtain ⟨m, hm, rfl⟩ := List.mem_map.mp hx
  rw [h.value?]
  exact hfree m (List.mem_reverse.mp hm)

end Prunes

/-- Removing a value that no satisfying assignment uses prunes. -/
theorem prunes_removeValue {x position : Nat} {v : Value}
    (hget : (domain r.vars x)[position]? = some v) (hfree : value? r.vars x = none)
    (hunused : ∀ a, net.SatisfiedBy a → Extends a r.vars → a x ≠ v) :
    Prunes net r (r.removeValue x position) := by
  have hvars : (r.removeValue x position).vars = mapDomain r.vars x (·.eraseIdx position) :=
    Trail.remove_of_getElem? hget
  have htrail : (r.removeValue x position).trail = ⟨⟨x, position, v⟩ :: r.trail.removals⟩ := by
    simp [Run.removeValue, Trail.remove, hget]
  have hx : x < r.vars.length := lt_length_of_domain_ne_nil (by
    intro hnil
    simp [hnil] at hget)
  refine ⟨?_, ?_, ?_, ⟨[⟨x, position, v⟩], ?_, ?_, ?_⟩, rfl, rfl, rfl, rfl, ?_⟩
  · rw [hvars, frame_mapDomain]
  · intro y
    rw [hvars, value?_mapDomain]
  · intro y
    rw [hvars]
    by_cases hy : y = x
    · subst hy
      rw [domain_mapDomain_self _ hx]
      exact List.eraseIdx_sublist ..
    · exact (domain_mapDomain_of_ne _ hy).symm ▸ List.Sublist.refl _
  · rw [htrail]
    rfl
  · intro m hm
    rw [List.mem_singleton.mp hm]
    exact hfree
  · rw [hvars]
    exact .remove .refl hget
  · intro a hs ha
    rw [hvars]
    constructor
    · intro y w hw
      rw [value?_mapDomain] at hw
      exact ha.held y w hw
    · intro y hlt hy
      rw [length_mapDomain] at hlt
      rw [value?_mapDomain] at hy
      have hm := ha.mem_domain y hlt hy
      by_cases hyx : y = x
      · subst hyx
        rw [domain_mapDomain_self _ hx, List.mem_eraseIdx_iff_getElem?]
        obtain ⟨i, hi⟩ := List.mem_iff_getElem?.mp hm
        refine ⟨i, ?_, hi⟩
        -- At the position itself stands `v`, which the assignment does not use.
        rintro rfl
        rw [hget, Option.some.injEq] at hi
        exact hunused a hs ha hi.symm
      · rwa [domain_mapDomain_of_ne _ hyx]

/-- Removing a value and freeing a variable commute. -/
theorem removeValue_free (r : Run) (x position y : Nat) :
    (r.removeValue x position).free y = (r.free y).removeValue x position := by
  simp only [Run.removeValue, Run.free, Trail.remove, domain_free]
  cases (domain r.vars x)[position]? with
  | none => rfl
  | some v => simp [free_mapDomain]

/-- Every constraint number stands for a constraint that a satisfying assignment satisfies. -/
theorem Network.SatisfiedBy.constraintAt {a : Nat → Value} (h : net.SatisfiedBy a) (c : Nat) :
    (net.constraintAt c).SatisfiedBy a := by
  rw [Network.constraintAt]
  cases hc : net.constraints[c]? with
  | none => rfl
  | some k => exact h k (List.mem_of_getElem? hc)

end FiniteDomain
