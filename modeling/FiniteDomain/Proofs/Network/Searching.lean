import FiniteDomain.Proofs.Network.Order
import FiniteDomain.Proofs.Network.Propagation

/-!
# States of a search

What a search relies on and keeps up (`Searching`): every constraint whose variables all hold values is true, and
the variables that hold values are counted and are the first ones of a fixed order. An assignment whose constraints
were checked keeps it up, and so does pruning; once every variable holds a value, their values are the one solution
that extends them (`Searching.extension_iff`). Solutions are told apart by the values that they give to the variables,
and where the order of variables is fixed these say which comes first (`Precedes`).
-/

namespace FiniteDomain

open Variables

/-! ## Solutions in order -/

namespace Solution

/-- The complete assignment `a`, as a solution. -/
def ofAssignment (vars : List Variable) (a : Nat → Value) : Solution :=
  ⟨vars.mapIdx fun x w => (w.name, a x)⟩

/-- The value of the variable with a number. -/
def value? (s : Solution) (x : Nat) : Option Value :=
  s.assignments[x]?.map Prod.snd

theorem value?_ofAssignment {vars : List Variable} {x : Nat} (hx : x < vars.length) (a : Nat → Value) :
    (ofAssignment vars a).value? x = some (a x) := by
  simp [value?, ofAssignment, List.getElem?_mapIdx, List.getElem?_eq_getElem hx]

/-- At the first variable of the order whose values differ, `s` has the value that is earlier in the domain. -/
def Before (order : List Nat) (vars : List Variable) (s t : Solution) : Prop :=
  ∃ k x v w, order[k]? = some x ∧ (∀ y ∈ order.take k, s.value? y = t.value? y) ∧
    s.value? x = some v ∧ t.value? x = some w ∧ [v, w].Sublist (domain vars x)

end Solution

/-- If variables are assigned in a fixed order, `s` comes before `t` in it. -/
def Network.Precedes (net : Network) (s t : Solution) : Prop :=
  ∀ order, net.order? = some order → s.Before order net.vars t

/-! ## Collected solutions -/

/-- From `r` to `r'` no solution is found. -/
structure FindsNothing (r r' : Run) : Prop where
  solutions : r'.solutions = r.solutions
  found : r'.stats.solutions = r.stats.solutions

theorem Quiet.findsNothing {r r' : Run} (h : Quiet r r') : FindsNothing r r' :=
  ⟨h.solutions, h.found⟩

/-- From `r` to `r'` the solutions with the property `p` are collected, each once and in order. -/
def Collects (net : Network) (p : Solution → Prop) (r r' : Run) : Prop :=
  ∃ new, r'.solutions = new ++ r.solutions ∧
    r'.stats.solutions = r.stats.solutions + new.length ∧ new.Nodup ∧
    new.Pairwise (fun s t => net.Precedes t s) ∧ ∀ s, s ∈ new ↔ p s

namespace Collects

variable {net : Network} {p q : Solution → Prop} {r r' r'' : Run}

/-- Nothing is collected. -/
theorem none (h : FindsNothing r r') (hp : ∀ s, ¬ p s) : Collects net p r r' :=
  ⟨[], h.solutions, h.found, List.nodup_nil, .nil, fun s => by simp [hp s]⟩

/-- The solutions with one of two properties that exclude each other are collected one kind after the other. -/
theorem join (h : Collects net p r r') (h' : Collects net q r' r'') (hpq : ∀ s, p s → ¬ q s)
    (hbefore : ∀ s t, p s → q t → net.Precedes s t) : Collects net (fun s => p s ∨ q s) r r'' := by
  obtain ⟨new, hsolutions, hfound, hnodup, hpairwise, hmem⟩ := h
  obtain ⟨new', hsolutions', hfound', hnodup', hpairwise', hmem'⟩ := h'
  refine ⟨new' ++ new, ?_, ?_, ?_, ?_, ?_⟩
  · rw [hsolutions', hsolutions, List.append_assoc]
  · rw [hfound', hfound, List.length_append]
    omega
  · refine List.nodup_append.mpr ⟨hnodup', hnodup, ?_⟩
    rintro s hs t ht rfl
    exact hpq s ((hmem s).mp ht) ((hmem' s).mp hs)
  · refine List.pairwise_append.mpr ⟨hpairwise', hpairwise, ?_⟩
    exact fun s hs t ht => hbefore t s ((hmem t).mp ht) ((hmem' s).mp hs)
  · intro s
    rw [List.mem_append, hmem, hmem']
    exact Or.comm

/-- Two names of one property. -/
theorem congr (h : Collects net p r r') (hpq : ∀ s, p s ↔ q s) : Collects net q r r' := by
  obtain ⟨new, hsolutions, hfound, hnodup, hpairwise, hmem⟩ := h
  exact ⟨new, hsolutions, hfound, hnodup, hpairwise, fun s => (hmem s).trans (hpq s)⟩

/-- What is found in between may be preceded and followed by steps that find nothing. -/
theorem between {s s' : Run} (hstart : FindsNothing s r) (h : Collects net p r r')
    (hend : FindsNothing r' s') : Collects net p s s' := by
  obtain ⟨new, hsolutions, hfound, hnodup, hpairwise, hmem⟩ := h
  exact ⟨new, by rw [hend.solutions, hsolutions, hstart.solutions], by rw [hend.found, hfound, hstart.found],
    hnodup, hpairwise, hmem⟩

end Collects

/-- From `r` to `r'` some of the solutions with the property `p` are collected, those that come first. -/
def Begins (net : Network) (p : Solution → Prop) (r r' : Run) : Prop :=
  ∃ q : Solution → Prop, Collects net q r r' ∧ (∀ s, q s → p s) ∧
    ∀ s t, q s → p t → ¬ q t → net.Precedes s t

namespace Begins

variable {net : Network} {p q : Solution → Prop} {r r' r'' : Run}

/-- Nothing is collected. -/
theorem none (h : FindsNothing r r') : Begins net p r r' :=
  ⟨fun _ => False, .none h (by simp), by simp, by simp⟩

/-- The solutions that come first are followed by others that are not collected. -/
theorem left (h : Begins net p r r') (hbefore : ∀ s t, p s → q t → net.Precedes s t) :
    Begins net (fun s => p s ∨ q s) r r' := by
  obtain ⟨f, hcollects, hsound, hfirst⟩ := h
  refine ⟨f, hcollects, fun s hs => .inl (hsound s hs), ?_⟩
  rintro s t hs (ht | ht) hnot
  · exact hfirst s t hs ht hnot
  · exact hbefore s t (hsound s hs) ht

/-- The solutions of one kind are followed by the first ones of another kind. -/
theorem right (h : Collects net p r r') (h' : Begins net q r' r'') (hpq : ∀ s, p s → ¬ q s)
    (hbefore : ∀ s t, p s → q t → net.Precedes s t) : Begins net (fun s => p s ∨ q s) r r'' := by
  obtain ⟨f, hcollects, hsound, hfirst⟩ := h'
  refine ⟨fun s => p s ∨ f s, ?_, fun s hs => hs.imp_right (hsound s), ?_⟩
  · exact h.join hcollects (fun s hp hf => hpq s hp (hsound s hf))
      (fun s t hp hf => hbefore s t hp (hsound t hf))
  · rintro s t hs (ht | ht) hnot
    · exact absurd (.inl ht) hnot
    · rcases hs with hs | hs
      · exact hbefore s t hs ht
      · exact hfirst s t hs ht fun hf => hnot (.inr hf)

/-- Two names of one property. -/
theorem congr (h : Begins net p r r') (hpq : ∀ s, p s ↔ q s) : Begins net q r r' := by
  obtain ⟨f, hcollects, hsound, hfirst⟩ := h
  exact ⟨f, hcollects, fun s hs => (hpq s).mp (hsound s hs), fun s t hs ht => hfirst s t hs ((hpq t).mpr ht)⟩

/-- What is found in between may be preceded and followed by steps that find nothing. -/
theorem between {s s' : Run} (hstart : FindsNothing s r) (h : Begins net p r r')
    (hend : FindsNothing r' s') : Begins net p s s' := by
  obtain ⟨f, hcollects, hsound, hfirst⟩ := h
  exact ⟨f, hcollects.between hstart hend, hsound, hfirst⟩

end Begins

namespace Network

variable {net : Network} {r r' : Run} {vars : List Variable} {x : Nat} {v : Value}

/-- A solution of the network that extends the values held. -/
def Extension (net : Network) (vars : List Variable) (s : Solution) : Prop :=
  ∃ a, Extends a vars ∧ net.SatisfiedBy a ∧ s = .ofAssignment net.vars a

/-- Solutions are equal only if they give every variable the same value. -/
theorem eq_of_ofAssignment_eq {a b : Nat → Value} (hx : x < vars.length)
    (h : Solution.ofAssignment vars a = .ofAssignment vars b) : a x = b x := by
  have hvalue := congrArg (·.value? x) h
  simpa [Solution.value?_ofAssignment hx] using hvalue

/-- The names of the variables determine how an assignment reads as a solution. -/
theorem ofAssignment_congr {vars' : List Variable} (h : frame vars' = frame vars) (a : Nat → Value) :
    Solution.ofAssignment vars' a = .ofAssignment vars a := by
  refine congrArg Solution.mk (List.mapIdx_eq_iff.mpr fun y => ?_)
  have hname := congrArg (fun l => (l[y]?.map Prod.fst).map fun n => (n, a y)) h
  simpa [frame, Option.map_map, Function.comp_def] using hname.symm

theorem filterMap_eq_mapIdx {α β : Type} {f : α → Option β} {g : Nat → α → β} {as : List α}
    (h : ∀ i a, as[i]? = some a → f a = some (g i a)) : as.filterMap f = as.mapIdx g := by
  induction as generalizing g with
  | nil => rfl
  | cons a as ih =>
      rw [List.filterMap_cons, h 0 a rfl, List.mapIdx_cons]
      exact congrArg _ (ih fun i b hb => h (i + 1) b (by simpa using hb))

/-- When every variable holds a value, what extends the variables reads as their values. -/
theorem solutionOf_eq_ofAssignment {a : Nat → Value} (ha : Extends a vars)
    (hsome : ∀ y, y < vars.length → (value? vars y).isSome) :
    solutionOf vars = .ofAssignment vars a := by
  refine congrArg Solution.mk (filterMap_eq_mapIdx ?_)
  intro y w hw
  have hy : y < vars.length := (List.getElem?_eq_some_iff.mp hw).1
  obtain ⟨u, hu⟩ := Option.isSome_iff_exists.mp (hsome y hy)
  have hvalue : w.value = some u := by simpa [value?, hw] using hu
  rw [hvalue, ha.held y u hu]
  rfl

/-! ## States of a search -/

/-- What a search relies on and keeps up of the variables, `assigned` of which hold a value. -/
structure Searching (net : Network) (vars : List Variable) (assigned : Nat) : Prop where
  within : net.Within vars
  /-- The constraints that no open variable is left of are true. -/
  checked : ∀ c, (∀ y ∈ (net.constraintAt c).scope, (value? vars y).isSome) →
    (net.constraintAt c).holds vars = .ok true
  count_eq : assigned = heldCount vars
  filled : ∀ order, net.order? = some order → FilledInOrder order vars assigned

namespace Searching

variable {assigned : Nat}

theorem length (h : net.Searching vars assigned) : vars.length = net.vars.length :=
  h.within.length

/-- Pruning keeps the search going. -/
theorem of_prunes (h : net.Searching r.vars assigned) (hprunes : Prunes net r r') :
    net.Searching r'.vars assigned := by
  refine ⟨h.within.of_prunes hprunes, ?_, ?_, ?_⟩
  · intro c hsome
    have hsome' : ∀ y ∈ (net.constraintAt c).scope, (value? r.vars y).isSome := by
      intro y hy
      rw [← hprunes.value?]
      exact hsome y hy
    rw [Constraint.holds_congr (fun y _ => hprunes.value? y) hsome']
    exact h.checked c hsome'
  · rw [h.count_eq, heldCount_congr hprunes.length hprunes.value?]
  · intro order horder y hy
    rw [hprunes.value?]
    exact h.filled order horder y (hprunes.length ▸ hy)

/-- A value for the chosen variable keeps the search going if the constraints that it completes are true. -/
theorem assign (hnet : net.Linked) (h : net.Searching vars assigned) (hx : x < vars.length)
    (hfree : value? vars x = none) (hnext : ∀ order, net.order? = some order → order[assigned]? = some x)
    (hv : v ∈ domain net.vars x)
    (hcomplete : ∀ c ∈ net.constraintsWith (assign vars x v) x 0,
      (net.constraintAt c).holds (Variables.assign vars x v) = .ok true) :
    net.Searching (Variables.assign vars x v) (assigned + 1) := by
  have hwithin : net.Within (Variables.assign vars x v) := h.within.assign hv
  refine ⟨hwithin, ?_, ?_, ?_⟩
  · intro c hsome
    -- A constraint on `x` is among those that are checked, any other one was true before.
    by_cases hmem : x ∈ (net.constraintAt c).scope
    · refine hcomplete c (List.mem_filter.mpr ⟨?_, ?_⟩)
      · rw [links_eq_of_frame hwithin.frame]
        exact (hnet.mem_links (h.length ▸ hx) c).mpr hmem
      · simp [unassigned_eq_nil_iff.mpr hsome]
    · have hsame : ∀ y ∈ (net.constraintAt c).scope,
          value? (Variables.assign vars x v) y = value? vars y := by
        rintro y hy
        refine value?_assign_of_ne ?_
        rintro rfl
        exact hmem hy
      have hsome' : ∀ y ∈ (net.constraintAt c).scope, (value? vars y).isSome := by
        intro y hy
        rw [← hsame y hy]
        exact hsome y hy
      rw [Constraint.holds_congr hsame hsome']
      exact h.checked c hsome'
  · rw [heldCount_assign hx hfree, h.count_eq]
  · exact fun order horder => (h.filled order horder).assign hx (hnext order horder)

/-- When every variable holds a value, their values are the one solution that extends them. -/
theorem extension_iff (hnet : net.Linked) (h : net.Searching vars assigned)
    (hall : assigned = vars.length) (s : Solution) : net.Extension vars s ↔ s = solutionOf vars := by
  have hsome : ∀ y, y < vars.length → (value? vars y).isSome := fun y hy =>
    isSome_of_heldCount_eq (h.count_eq.symm.trans hall) hy
  have hsolution : ∀ a, Extends a vars → .ofAssignment net.vars a = solutionOf vars := by
    intro a ha
    rw [solutionOf_eq_ofAssignment ha hsome, ofAssignment_congr h.within.frame]
  constructor
  · rintro ⟨a, ha, -, rfl⟩
    exact hsolution a ha
  · rintro rfl
    -- The default is never used: no variable is left open.
    have ha : Extends (fun y => (value? vars y).getD (.bool true)) vars := by
      constructor
      · intro y w hw
        simp [hw]
      · intro y hy hnone
        have := hsome y hy
        simp [hnone] at this
    refine ⟨_, ha, ?_, (hsolution _ ha).symm⟩
    intro k hk
    obtain ⟨c, -, rfl⟩ := exists_constraintAt hk
    refine Constraint.satisfiedBy_of_holds ha (h.checked c fun y hy => hsome y ?_)
    rw [h.length]
    exact hnet.lt_length_of_mem_scope hy

/-- Solutions with different values of a variable differ. -/
theorem eq_of_extension (h : net.Searching vars assigned) (hx : x < vars.length) {w : Value} {s : Solution}
    (hv : net.Extension (Variables.assign vars x v) s) (hw : net.Extension (Variables.assign vars x w) s) :
    v = w := by
  obtain ⟨a, ha, -, rfl⟩ := hv
  obtain ⟨b, hb, -, heq⟩ := hw
  rw [← ha.eq_of_assign hx, ← hb.eq_of_assign hx]
  exact eq_of_ofAssignment_eq (h.length ▸ hx) heq

/-- Solutions with an earlier value of the next variable come first. -/
theorem precedes (hnet : net.Linked) (h : net.Searching vars assigned) (hx : x < vars.length)
    (hfree : value? vars x = none)
    (hnext : ∀ order, net.order? = some order → order[assigned]? = some x) {w : Value} {s t : Solution}
    (hvw : [v, w].Sublist (domain vars x)) (hs : net.Extension (Variables.assign vars x v) s)
    (ht : net.Extension (Variables.assign vars x w) t) : net.Precedes s t := by
  obtain ⟨a, ha, -, rfl⟩ := hs
  obtain ⟨b, hb, -, rfl⟩ := ht
  intro order horder
  have hx' : x < net.vars.length := h.length ▸ hx
  refine ⟨assigned, x, v, w, hnext order horder, ?_, ?_, ?_, hvw.trans (h.within.sublist x)⟩
  · -- The variables before `x` hold values already.
    intro y hy
    have hlt : y < net.vars.length :=
      List.mem_range.mp ((hnet.order?_perm horder).subset (List.mem_of_mem_take hy))
    obtain ⟨u, hu⟩ := Option.isSome_iff_exists.mp ((h.filled order horder y (h.length ▸ hlt)).mpr hy)
    have hne : y ≠ x := by
      rintro rfl
      rw [hfree] at hu
      cases hu
    have hheld : ∀ w', value? (Variables.assign vars x w') y = some u :=
      fun _ => (value?_assign_of_ne hne).trans hu
    rw [Solution.value?_ofAssignment hlt, Solution.value?_ofAssignment hlt, ha.held y u (hheld v),
      hb.held y u (hheld w)]
  · rw [Solution.value?_ofAssignment hx', ha.eq_of_assign hx]
  · rw [Solution.value?_ofAssignment hx', hb.eq_of_assign hx]

end Searching

end Network

end FiniteDomain
