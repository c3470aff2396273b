import Mathlib
import FiniteDomain.Proofs.Network.Sessions
import FiniteDomain.Proofs.Network.Solutions
import FiniteDomain.Proofs.Network.Visits

/-!
# What holds whenever the search is called

However deep a call of the search is, and whatever propagation has done above it, the variables that hold values are
those that the calls around it chose, they are counted, their domains are the ones that they were chosen with, every
constraint on them alone is true, and the next variable is an open one (`invariant_of_visits`). A step of the search is
a turn followed by a value: the turns before have put everything back (`InSearch.turn`), the value is checked, and
propagation only prunes the domains of open variables (`InSearch.entered`). A search that is right where the invariant
holds is therefore right in the whole solve (`run_exploreWith_of_invariant`).
-/

namespace FiniteDomain.Network

open Variables

variable {net start : Network} {choices : List Choice} {r r₁ r' s : Run} {x : Nat} {v : Value}
  {before after : List Value}

/-! ## One step of the search -/

/-- What the calls of the search keep up. -/
structure InSearch (net : Network) (choices : List Choice) (r : Run) : Prop where
  searching : net.Searching r.vars r.assigned
  assigned_eq : r.assigned = choices.length
  chosen : ∀ x, (value? r.vars x).isSome ↔ x ∈ choices.map (·.variableNumber)
  kept : ∀ choice ∈ choices, domain r.vars choice.variableNumber = choice.domain
  mem_domain : ∀ x v, value? r.vars x = some v → v ∈ domain r.vars x

namespace InSearch

/-- Pruning keeps it up: only open variables lose values. -/
theorem of_prunes (h : net.InSearch choices r) (hprunes : Prunes net r r') : net.InSearch choices r' := by
  have hdomain : ∀ y, (value? r.vars y).isSome → domain r'.vars y = domain r.vars y := fun y hy =>
    hprunes.domain_eq_of_held hy
  constructor
  · rw [hprunes.assigned]
    exact h.searching.of_prunes hprunes
  · exact hprunes.assigned.trans h.assigned_eq
  · intro y
    rw [hprunes.value?]
    exact h.chosen y
  · intro choice hchoice
    have hheld := (h.chosen choice.variableNumber).mpr (List.mem_map_of_mem hchoice)
    rw [hdomain _ hheld, h.kept choice hchoice]
  · intro y w hw
    rw [hprunes.value?] at hw
    rw [hdomain y (by rw [hw]; rfl)]
    exact h.mem_domain y w hw

/-- A value for an open variable keeps it up. -/
theorem assign (h : net.InSearch choices r) (hx : x < r.vars.length) (hfree : value? r.vars x = none)
    (hv : v ∈ domain r.vars x) (hvars : s.vars = assign r.vars x v) (hassigned : s.assigned = r.assigned + 1)
    (hsearching : net.Searching s.vars s.assigned) :
    net.InSearch (⟨x, domain r.vars x⟩ :: choices) s := by
  have hself : value? s.vars x = some v := by rw [hvars, value?_assign_self hx]
  have hother : ∀ y, y ≠ x → value? s.vars y = value? r.vars y := fun y hy => by
    rw [hvars, value?_assign_of_ne hy]
  have hdomain : ∀ y, domain s.vars y = domain r.vars y := fun y => by rw [hvars, domain_assign]
  constructor
  · exact hsearching
  · rw [hassigned, h.assigned_eq, List.length_cons]
  · intro y
    rw [List.map_cons, List.mem_cons]
    by_cases hy : y = x
    · simp [hy, hself]
    · rw [hother y hy, h.chosen]
      simp [hy]
  · intro choice hchoice
    rw [hdomain]
    rcases List.mem_cons.mp hchoice with rfl | hchoice
    · rfl
    · exact h.kept choice hchoice
  · intro y w hw
    rw [hdomain]
    by_cases hy : y = x
    · subst hy
      rw [hself, Option.some.injEq] at hw
      exact hw ▸ hv
    · exact h.mem_domain y w (by rw [← hother y hy, hw])

end InSearch

/-- The first call is led to by propagation from a state in which no variable holds a value. -/
theorem Opens.exists_preprocessed (hnet : net.Linked) (h : net.Opens r) :
    ∃ s s', net.InSearch [] s ∧ s.trail = {} ∧ net.preprocess.run s = (.ok .consistent, s') ∧ Quiet s' r := by
  obtain ⟨r₁, r₂, hconstant, hpreprocess, rfl⟩ := h
  obtain ⟨hquiet, hholds⟩ := (allHold_ensures (net.constraintsOfArity 0) { vars := net.vars } hnet.within
    fun c hc => unassigned_eq_nil_of_mem_constraintsOfArity net.vars hc).of_run_ok hconstant
  have hvars : r₁.vars = net.vars := hquiet.vars
  have hassigned : r₁.assigned = 0 := hquiet.assigned
  have hnone : ∀ y, value? r₁.vars y = none := by
    intro y
    rw [hvars, hnet.value?_eq_none]
  refine ⟨{ r₁ with trail := {} }, r₂, ?_, rfl, hpreprocess, Quiet.events r₂ _⟩
  constructor
  · show net.Searching r₁.vars r₁.assigned
    rw [hvars, hassigned]
    exact searching_start hnet hholds
  · exact hassigned
  · simp [hnone]
  · simp
  · simp [hnone]

/-- The first call finds no variable with a value. -/
theorem inSearch_of_opens (hnet : net.Linked) (h : net.Opens r) : net.InSearch [] r := by
  obtain ⟨s, s', hin, -, hpreprocess, hquiet⟩ := h.exists_preprocessed hnet
  have hpropagates := preprocess_propagates hnet s hin.searching.within
  exact (hin.of_prunes (hpropagates.of_run_ok hpreprocess).1).of_prunes hquiet.prunes

namespace InSearch

/-- The variable that is chosen is an open one. -/
theorem of_select (hnet : net.Linked) (h : net.InSearch choices r)
    (hselect : net.config.heuristic.select net.constraints r.vars r.assigned = some x) :
    r.assigned < r.vars.length ∧ x < r.vars.length ∧ value? r.vars x = none ∧
      ∀ order, net.order? = some order → order[r.assigned]? = some x :=
  Heuristic.of_select_eq_some hnet h.searching.length h.searching.filled h.searching.count_eq hselect

/-- The values tried before have left nothing behind but the last of them, which the variable still holds. -/
theorem turn (hnet : net.Linked) (h : net.InSearch choices r)
    (hturn : net.Turn choices.length r x before after r₁) :
    free r₁.vars x = r.vars ∧ r₁.assigned = r.assigned + 1 := by
  obtain ⟨hlt, hx, hfree, hnext⟩ := h.of_select hnet hturn.select
  have hself : free (r.choose x).vars x = r.vars := free_eq_self hfree
  have hbefore : before.Sublist (domain (r.choose x).vars x) := by
    show before.Sublist (domain r.vars x)
    rw [hturn.domain]
    exact List.sublist_append_left ..
  have hfinds : ∀ r', net.Searching r'.vars (r.assigned + 1) → r'.assigned = r.assigned + 1 →
      net.Finds (net.search (net.vars.length - (choices.length + 1))) r' := by
    intro r' hsearching hassigned
    refine search_finds hnet _ r' (hassigned ▸ hsearching) ?_
    have hlength := hsearching.length
    have hlength' := h.searching.length
    have hdepth := h.assigned_eq
    omega
  have hsearching : net.Searching (free (r.choose x).vars x) r.assigned := hself.symm ▸ h.searching
  have hrestores := (tryValues_ensures hnet hbefore hsearching rfl hx hnext hfinds).of_run_ok hturn.tried
  exact ⟨hrestores.1.vars.trans hself, hrestores.1.assigned⟩

/-- A turn finds the domains as they were when the variable was chosen. -/
theorem domain_eq_of_turn (hnet : net.Linked) (h : net.InSearch choices r)
    (hturn : net.Turn choices.length r x before after r₁) (y : Nat) : domain r₁.vars y = domain r.vars y := by
  rw [← (h.turn hnet hturn).1, domain_free]

/-- A value leads to the next call by propagation from a state in which the variable holds it. -/
theorem exists_propagated (hnet : net.Linked) (h : net.InSearch choices r)
    (hturn : net.Turn choices.length r x before (v :: after) r₁) (henters : net.Enters x v r₁ r') :
    ∃ s, s.vars = Variables.assign r.vars x v ∧ s.trail = {} ∧
      net.InSearch (⟨x, before ++ v :: after⟩ :: choices) s ∧ (net.propagate x).run s = (.ok .consistent, r') := by
  obtain ⟨hlt, hx, hfree, hnext⟩ := h.of_select hnet hturn.select
  obtain ⟨hvars, hassigned⟩ := h.turn hnet hturn
  obtain ⟨r₂, hcomplete, hpropagate⟩ := henters
  have hv : v ∈ domain r.vars x := by
    rw [hturn.domain]
    simp
  have hv' : v ∈ domain net.vars x := h.searching.within.mem_domain hv
  -- The last value tried is overwritten.
  have hassign : Variables.assign r₁.vars x v = Variables.assign r.vars x v := by rw [← hvars, assign_free]
  have hstart : (r₁.assigning x v).vars = Variables.assign r.vars x v := hassign
  have hall : ∀ c ∈ net.constraintsWith (Variables.assign r.vars x v) x 0,
      net.unassigned (r₁.assigning x v).vars c = [] := by
    rw [hstart]
    exact fun c hc => List.length_eq_zero_iff.mp (length_unassigned_of_mem_constraintsWith hc)
  rw [hassign] at hcomplete
  obtain ⟨hquiet, hholds⟩ :=
    (allHold_ensures _ _ (hstart ▸ h.searching.within.assign hv') hall).of_run_ok hcomplete
  have hvars₂ : r₂.vars = Variables.assign r.vars x v := hquiet.vars.trans hstart
  have hassigned₂ : r₂.assigned = r.assigned + 1 := hquiet.assigned.trans hassigned
  have hsearching : net.Searching r₂.vars r₂.assigned := by
    rw [hvars₂, hassigned₂]
    exact h.searching.assign hnet hx hfree hnext hv' (hstart ▸ hholds)
  rw [← hturn.domain]
  exact ⟨{ r₂ with trail := {} }, hvars₂, rfl, h.assign hx hfree hv hvars₂ hassigned₂ hsearching, hpropagate⟩

/-- The next call finds one variable more with a value of its domain, and the domains of those before as they were. -/
theorem entered (hnet : net.Linked) (h : net.InSearch choices r)
    (hturn : net.Turn choices.length r x before (v :: after) r₁) (henters : net.Enters x v r₁ r') :
    net.InSearch (⟨x, before ++ v :: after⟩ :: choices) r' := by
  obtain ⟨s, -, htrail, hin, hpropagate⟩ := h.exists_propagated hnet hturn henters
  have hpropagates := propagate_propagates hnet x s hin.searching.within htrail
  exact hin.of_prunes (hpropagates.of_run_ok hpropagate).1

end InSearch

/-- Every call of the search finds what the calls keep up. -/
theorem inSearch_of_visits (hnet : net.Linked) (h : net.Visits choices r) : net.InSearch choices r := by
  induction h with
  | opened hopens => exact inSearch_of_opens hnet hopens
  | entered _ hturn henters ih => exact ih.entered hnet hturn henters

/-- The count of variables left never ends the search before the heuristic does: what a call does is what the
heuristic says. -/
theorem run_searchWith_of_visits (hnet : net.Linked) (h : net.Visits choices r) (next : Solver Unit) :
    (net.searchWith next (net.vars.length - choices.length)).run r = (net.call next).run r := by
  rcases Nat.lt_or_ge choices.length net.vars.length with hlt | hle
  · have hremaining : net.vars.length - choices.length = net.vars.length - (choices.length + 1) + 1 := by omega
    rw [hremaining, searchWith]
  · have hin := inSearch_of_visits hnet h
    have hremaining : net.vars.length - choices.length = 0 := by omega
    have hselect : net.config.heuristic.select net.constraints r.vars r.assigned = none := by
      refine Option.eq_none_iff_forall_ne_some.mpr fun x hselect => ?_
      have hopen := (hin.of_select hnet hselect).1
      rw [hin.assigned_eq, hin.searching.length] at hopen
      omega
    rw [hremaining, searchWith, call, countState, Solver.run_update_bind, Solver.run_update_bind,
      Solver.run_look_bind, hselect]

/-! ## The invariant -/

/-- What holds when the search is called in the state `r`, inside calls that made the choices. -/
structure Invariant (net : Network) (choices : List Choice) (r : Run) : Prop where
  count_eq : r.assigned = heldCount r.vars
  mem_domain : ∀ x v, value? r.vars x = some v → v ∈ domain r.vars x
  nodup : ∀ x, (domain r.vars x).Nodup
  sublist : ∀ x, (domain r.vars x).Sublist (domain net.vars x)
  /-- The variables that hold values are those that the calls around this one chose. -/
  chosen : ∀ x, (value? r.vars x).isSome ↔ x ∈ choices.map (·.variableNumber)
  kept : ∀ choice ∈ choices, domain r.vars choice.variableNumber = choice.domain
  /-- Whichever values of its variable this call has tried, the domain is still the one that they are taken from. -/
  snapshot : ∀ x before after r', net.Turn choices.length r x before after r' →
    domain r'.vars x = before ++ after
  checked : ∀ c ∈ net.constraints, (∀ x ∈ c.scope, (value? r.vars x).isSome) → c.holds r.vars = .ok true
  of_select : ∀ x, net.config.heuristic.select net.constraints r.vars r.assigned = some x →
    x < net.vars.length ∧ value? r.vars x = none
  select_eq_none_iff : net.config.heuristic.select net.constraints r.vars r.assigned = none ↔
    ∀ x < net.vars.length, (value? r.vars x).isSome
  depth_eq : choices.length = r.assigned
  depth_le : choices.length ≤ net.vars.length

/-- What the calls of the search keep up says all that holds when it is called. -/
theorem InSearch.invariant (hnet : net.Linked) (h : net.InSearch choices r) : net.Invariant choices r := by
  have hlength : r.vars.length = net.vars.length := h.searching.length
  have hcount := h.searching.count_eq
  constructor
  · exact hcount
  · exact h.mem_domain
  · exact fun x => (hnet.nodup_domain x).sublist (h.searching.within.sublist x)
  · exact h.searching.within.sublist
  · exact h.chosen
  · exact h.kept
  · intro x before after r' hturn
    rw [h.domain_eq_of_turn hnet hturn, hturn.domain]
  · intro c hc hsome
    obtain ⟨k, -, rfl⟩ := exists_constraintAt hc
    exact h.searching.checked k hsome
  · intro x hselect
    obtain ⟨-, hx, hfree, -⟩ := h.of_select hnet hselect
    exact ⟨hlength ▸ hx, hfree⟩
  · rw [← hlength]
    exact Heuristic.select_eq_none_iff hnet hlength h.searching.filled hcount
  · exact h.assigned_eq.symm
  · rw [← h.assigned_eq, hcount, ← hlength]
    exact heldCount_le_length r.vars

/-- **The search may rely on the invariant.** Computations, one for each depth of calls, that do what a call of the
search does wherever the invariant holds, calling each other, make up the same solve: no call is made without it, and
none has to count the variables that are left. -/
theorem run_exploreWith_of_invariant (hbuilt : start.Built) (hreaches : start.Reaches net) {calls : Nat → Solver Unit}
    (hcalls : ∀ choices r, net.rewound.Invariant choices r →
      (calls choices.length).run r = (net.rewound.call (calls (choices.length + 1))).run r) :
    (net.rewound.exploreWith (calls 0)).run { vars := net.vars }
      = net.rewound.explore.run { vars := net.vars } := by
  have hnet : net.rewound.Linked := (hreaches.linked hbuilt).rewound 0 {}
  refine run_exploreWith_of_visits fun choices r hvisits => ?_
  rw [run_searchWith_of_visits hnet hvisits]
  exact hcalls choices r ((inSearch_of_visits hnet hvisits).invariant hnet)

/-- Whenever a solve calls the search, at any depth and under any configuration, the values held are counted and are
values of domains that are as they were when their variables were chosen, what is left of the domains stands in its
order, the constraints on the variables held are true, and an open variable is chosen if there is one; so calls nest no
deeper than there are variables. -/
theorem invariant_of_visits (hbuilt : start.Built) (hreaches : start.Reaches net)
    (h : net.rewound.Visits choices r) : net.rewound.Invariant choices r := by
  have hnet : net.rewound.Linked := (hreaches.linked hbuilt).rewound 0 {}
  exact (inSearch_of_visits hnet h).invariant hnet

/-- Node consistency after every assignment, and the variable with the fewest values next. -/
def forward : Config :=
  { node := true, heuristic := .fewestValues }

/-- With the first value for `A` one value is left for `B`, and the search is called with both held. -/
theorem invariant_of_visits_ascending :
    ∃ r, (ascending.configure forward).rewound.Visits [⟨1, [.int 2]⟩, ⟨0, [.int 1, .int 2]⟩] r ∧
      (ascending.configure forward).rewound.Invariant [⟨1, [.int 2]⟩, ⟨0, [.int 1, .int 2]⟩] r := by
  have hvisits : ∃ r, (ascending.configure forward).rewound.Visits [⟨1, [.int 2]⟩, ⟨0, [.int 1, .int 2]⟩] r :=
    ⟨_, .entered
      (.entered (.opened ⟨_, _, run_eq_of_fst (by cbv), run_eq_of_fst (by cbv), rfl⟩)
        (⟨by cbv, by cbv, run_eq_of_fst (by cbv)⟩ : Turn _ 0 _ 0 [] [.int 1, .int 2] _)
        ⟨_, run_eq_of_fst (by cbv), run_eq_of_fst (by cbv)⟩)
      (⟨by cbv, by cbv, run_eq_of_fst (by cbv)⟩ : Turn _ 1 _ 1 [] [.int 2] _)
      ⟨_, run_eq_of_fst (by cbv), run_eq_of_fst (by cbv)⟩⟩
  obtain ⟨r, hvisits⟩ := hvisits
  exact ⟨r, hvisits, invariant_of_visits built_ascending (.configure forward .refl) hvisits⟩

end FiniteDomain.Network
