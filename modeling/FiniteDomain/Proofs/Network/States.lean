import FiniteDomain.Proofs.Network.PartialSolutions
import FiniteDomain.Proofs.Network.Sessions
import FiniteDomain.Proofs.Network.Solutions

/-!
# The states that a search visits

In declaration order and without propagation, a call of the search stands for values of the first variables under
which no constraint on them fails (`PartialSolution`), and every such choice of values is reached by one call. So the
number of states visited is the number of partial solutions. Propagation takes values out of domains, and with them
calls, but adds none: `Counted` keeps the bound for every configuration and the equation for the one without
propagation, and the recursion of the search is followed once for both.
-/

namespace FiniteDomain

open Variables

/-- No consistency is enforced, neither before the search nor after an assignment. -/
structure Config.Plain (config : Config) : Prop where
  initialNode : config.initialNode = false
  initialArc : config.initialArc = false
  node : config.node = false
  arc : config.arc = false

namespace Network

variable {net : Network} {r r' r'' : Run} {vs us : List Value} {v : Value} {k x : Nat}

/-! ## Counted states -/

/-- From `r` to `r'` no more states are counted than there are in `p`, and exactly so many without propagation. -/
structure Counted (net : Network) (p : Set (Nat × List Value)) (r r' : Run) : Prop where
  le : (r'.stats.states : ℕ∞) ≤ r.stats.states + p.encard
  eq : net.config.Plain → (r'.stats.states : ℕ∞) = r.stats.states + p.encard

namespace Counted

variable {p q : Set (Nat × List Value)}

/-- Nothing is counted. -/
theorem none (h : r'.stats.states = r.stats.states) (hp : net.config.Plain → p = ∅) : net.Counted p r r' := by
  constructor
  · rw [h]
    exact le_self_add
  · intro hplain
    rw [h, hp hplain, Set.encard_empty, add_zero]

/-- States of one kind are counted after those of another. -/
theorem join (h : net.Counted p r r') (h' : net.Counted q r' r'') (hpq : Disjoint p q) :
    net.Counted (p ∪ q) r r'' := by
  have hsum : (r.stats.states : ℕ∞) + (p ∪ q).encard = r.stats.states + p.encard + q.encard := by
    rw [Set.encard_union_eq hpq, add_assoc]
  constructor
  · rw [hsum]
    exact h'.le.trans (add_le_add_left h.le _)
  · intro hplain
    rw [hsum, h'.eq hplain, h.eq hplain]

/-- More may be there to count if nothing more is without propagation. -/
theorem mono (h : net.Counted p r r') (hpq : p ⊆ q) (hplain : net.config.Plain → p = q) : net.Counted q r r' :=
  ⟨h.le.trans (add_le_add_right (Set.encard_le_encard hpq) _), fun hp => hplain hp ▸ h.eq hp⟩

/-- What is counted in between may be preceded and followed by steps that count nothing. -/
theorem between {s s' : Run} (h : net.Counted p r r') (hstart : r.stats.states = s.stats.states)
    (hend : s'.stats.states = r'.stats.states) : net.Counted p s s' := by
  constructor
  · rw [hend, ← hstart]
    exact h.le
  · rw [hend, ← hstart]
    exact h.eq

/-- The state itself is counted before what comes after it. -/
theorem insert {s : Run} {a : Nat × List Value} (hstart : s.stats.states = r.stats.states + 1)
    (h : net.Counted p s r') (ha : a ∉ p) : net.Counted (insert a p) r r' := by
  have hsum : (r.stats.states : ℕ∞) + (Insert.insert a p).encard = s.stats.states + p.encard := by
    rw [Set.encard_insert_of_notMem ha, hstart, Nat.cast_add, Nat.cast_one, add_assoc, add_comm p.encard]
  constructor
  · rw [hsum]
    exact h.le
  · rw [hsum]
    exact h.eq

end Counted

/-- A computation that does not fail counts the states in `p`. -/
def Counts (net : Network) (p : Set (Nat × List Value)) (act : Solver Unit) (r : Run) : Prop :=
  act.Ensures r (fun _ r' => net.Counted p r r') fun _ _ => True

/-! ## Without propagation -/

theorem propagate_of_plain (h : net.config.Plain) (x : Nat) : net.propagate x = pure .consistent := by
  simp only [propagate, h.node, h.arc, Bool.false_eq_true, if_false]

theorem preprocess_of_plain (h : net.config.Plain) : net.preprocess = pure .consistent := by
  simp only [preprocess, h.initialNode, h.initialArc, Bool.false_eq_true, if_false]

/-- After pruning that is undone at the end, what the search counts from there is counted. Without propagation the
search goes on where it is. -/
theorem counts_undoing {act : Solver Verdict} {next : Solver Unit} {p : Set (Nat × List Value)}
    (hact : net.Propagates { r with trail := {} } act) (hplain : net.config.Plain → act = pure .consistent)
    (hnext : ∀ r', Prunes net { r with trail := {} } r' →
      (net.config.Plain → r' = { r with trail := {} }) → net.Counts p next r') :
    net.Counts p (Solver.undoing do
      match ← act with
      | .consistent => next
      | .conflict => pure ()) r := by
  have hstay : act.Ensures { r with trail := {} }
      (fun verdict r' => net.config.Plain → verdict = .consistent ∧ r' = { r with trail := {} })
      fun _ _ => True := by
    by_cases hp : net.config.Plain
    · rw [hplain hp]
      exact fun _ => ⟨rfl, rfl⟩
    · exact (Solver.ensures_true act _).mono (fun _ _ _ h => absurd h hp) fun _ _ _ => trivial
  refine Solver.ensures_look_bind (Solver.ensures_update_bind (Solver.Ensures.ensuring ?_))
  refine Solver.Ensures.bind ((Solver.Ensures.and hact hstay).mono ?_ fun _ _ _ => trivial)
  rintro verdict r₁ ⟨⟨hprunes, -⟩, hstay⟩
  cases verdict with
  | consistent =>
      refine (hnext r₁ hprunes fun hp => (hstay hp).2).mono ?_ fun _ _ _ => trivial
      exact fun _ r₂ hcounted => hcounted.between hprunes.states rfl
  | conflict => exact .none hprunes.states fun hp => nomatch (hstay hp).1

/-! ## States under static order -/

/-- The variables before a call of the search: the first of them hold the values `vs`, every constraint on these is
true, and without propagation no domain has changed. -/
structure Holding (net : Network) (vs : List Value) (vars : List Variable) : Prop where
  searching : net.Searching vars vs.length
  value?_eq : ∀ x, value? vars x = vs[x]?
  domain_eq : net.config.Plain → ∀ x, domain vars x = domain net.vars x

namespace Holding

variable {vars : List Variable}

/-- The values held are a partial solution. -/
theorem partialSolution (h : net.Holding vs vars) (hle : vs.length ≤ net.vars.length) :
    net.PartialSolution vs.length vs := by
  refine ⟨hle, rfl, ?_, ?_⟩
  · intro x v hv
    exact h.searching.within.mem_of_held x v ((h.value?_eq x).trans hv)
  · intro c hc _ hscope
    obtain ⟨n, -, rfl⟩ := exists_constraintAt hc
    have htrue : (net.constraintAt n).holds vars = .ok true := by
      refine h.searching.checked n fun x hx => ?_
      rw [h.value?_eq, List.getElem?_eq_getElem (hscope x hx)]
      rfl
    rw [holds_of_held h.value?_eq hscope, Constraint.bind_truthOf_eq_ok_iff] at htrue
    exact htrue

/-- Pruning keeps the values held, and it is only propagation that prunes. -/
theorem of_prunes (h : net.Holding vs r.vars) (hprunes : Prunes net r r')
    (hplain : net.config.Plain → r' = r) : net.Holding vs r'.vars := by
  refine ⟨h.searching.of_prunes hprunes, fun x => (hprunes.value? x).trans (h.value?_eq x), fun hp => ?_⟩
  rw [hplain hp]
  exact h.domain_eq hp

/-- The next variable holds no value. -/
theorem value?_next (h : net.Holding vs vars) : value? vars vs.length = none := by
  rw [h.value?_eq, List.getElem?_eq_none le_rfl]

/-- What the variables hold after the next one is given a value. -/
theorem value?_assign (h : net.Holding vs vars) (hx : vs.length < vars.length) (x : Nat) :
    value? (Variables.assign vars vs.length v) x = (vs ++ [v])[x]? := by
  rcases Nat.lt_trichotomy x vs.length with hlt | rfl | hgt
  · rw [value?_assign_of_ne hlt.ne, h.value?_eq, List.getElem?_append_left hlt]
  · rw [value?_assign_self hx, List.getElem?_concat_length]
  · rw [value?_assign_of_ne hgt.ne', h.value?_eq, List.getElem?_eq_none hgt.le, List.getElem?_eq_none]
    simpa using hgt

end Holding

/-- In declaration order the variables are assigned by number. -/
theorem getElem?_order_of_static (h : net.config.heuristic = .static) (hk : k < net.vars.length) :
    ∀ order, net.order? = some order → order[k]? = some k := by
  intro order horder
  rw [order?, h, Heuristic.fixedOrder?, Option.some.injEq] at horder
  rw [← horder, List.getElem?_range (by rwa [length_variableLinks])]

section Search

variable {next : Solver Unit}
variable (hnet : net.Linked) (hstatic : net.config.heuristic = .static)
include hnet hstatic

/-- Trying a value counts the partial solutions that go on with it. -/
theorem tryValue_counts (hholding : net.Holding vs (free r.vars vs.length)) (hassigned : r.assigned = vs.length + 1)
    (hx : vs.length < r.vars.length) (hv : v ∈ domain r.vars vs.length)
    (hnext : ∀ r', net.Holding (vs ++ [v]) r'.vars → r'.assigned = vs.length + 1 →
      net.Counts (net.partialsFrom (vs ++ [v])) next r') :
    net.Counts (net.partialsFrom (vs ++ [v])) (net.tryValue next vs.length v) r := by
  have hlength : r.vars.length = net.vars.length := length_free.symm.trans hholding.searching.length
  have hx' : vs.length < (free r.vars vs.length).length := by simpa using hx
  have hvars : assign (free r.vars vs.length) vs.length v = assign r.vars vs.length v := assign_free
  have hv' : v ∈ domain net.vars vs.length :=
    hholding.searching.within.mem_domain (by rwa [domain_free])
  have hwithin : net.Within (assign r.vars vs.length v) := hvars ▸ hholding.searching.within.assign hv'
  have hheld : ∀ y, value? (assign r.vars vs.length v) y = (vs ++ [v])[y]? :=
    fun y => hvars ▸ hholding.value?_assign hx' y
  have hcomplete : ∀ c ∈ net.constraintsWith (assign r.vars vs.length v) vs.length 0,
      net.unassigned (assign r.vars vs.length v) c = [] :=
    fun c hc => List.length_eq_zero_iff.mp (length_unassigned_of_mem_constraintsWith hc)
  unfold tryValue
  refine Solver.ensures_update_bind (Solver.ensures_look_bind (Solver.Ensures.bind ?_))
  refine (allHold_ensures _ _ hwithin hcomplete).mono ?_ fun _ _ _ => trivial
  rintro b r₁ ⟨hquiet, hall⟩
  have hvars₁ : r₁.vars = assign r.vars vs.length v := hquiet.vars
  cases b with
  | true =>
      have hholding₁ : net.Holding (vs ++ [v]) r₁.vars := by
        refine ⟨?_, fun y => by rw [hvars₁, hheld], fun hp y => ?_⟩
        · rw [hvars₁, ← hvars, List.length_append, List.length_singleton]
          refine hholding.searching.assign hnet hx' hholding.value?_next ?_ hv' ?_
          · exact getElem?_order_of_static hstatic (hlength ▸ hx)
          · rw [hvars]
            exact hall
        · rw [hvars₁, domain_assign, ← hholding.domain_eq hp y, domain_free]
      have hpropagates := propagate_propagates hnet vs.length { r₁ with trail := {} }
        hholding₁.searching.within rfl
      refine Solver.Ensures.mono (counts_undoing (p := net.partialsFrom (vs ++ [v])) hpropagates
        (propagate_of_plain · vs.length) ?_) ?_ fun _ _ _ => trivial
      · intro r₂ hprunes hplain
        refine hnext r₂ (Holding.of_prunes (r := { r₁ with trail := {} }) hholding₁ hprunes hplain) ?_
        rw [hprunes.assigned]
        exact hquiet.assigned.trans hassigned
      · exact fun _ r₂ hcounted => hcounted.between hquiet.states rfl
  | false =>
      obtain ⟨c, hc, hfalse⟩ := hall
      have hx : vs.length ∈ (net.constraintAt c).scope :=
        ((hnet.mem_constraintsWith_iff hwithin.frame (by rwa [length_assign])).mp hc).1
      refine .none hquiet.states fun _ => partialsFrom_eq_empty ?_
      exact not_partialSolution_of_holds hheld hx hfalse

/-- Trying values counts the partial solutions that go on with one of them. -/
theorem tryValues_counts (husub : us.Sublist (domain r.vars vs.length))
    (hholding : net.Holding vs (free r.vars vs.length)) (hassigned : r.assigned = vs.length + 1)
    (hx : vs.length < r.vars.length)
    (hfinds : ∀ r', net.Searching r'.vars (vs.length + 1) → r'.assigned = vs.length + 1 → net.Finds next r')
    (hnext : ∀ v r', net.Holding (vs ++ [v]) r'.vars → r'.assigned = vs.length + 1 →
      net.Counts (net.partialsFrom (vs ++ [v])) next r') :
    net.Counts (net.partialsAfter vs us) (net.tryValues next vs.length us) r := by
  induction us generalizing r with
  | nil => exact .none rfl fun _ => Set.eq_empty_of_forall_notMem fun _ ⟨_, _, hu, _⟩ => nomatch hu
  | cons u us ih =>
      have hsearch := hholding.searching
      have hlength : r.vars.length = net.vars.length := length_free.symm.trans hsearch.length
      have hnodup : (u :: us).Nodup := by
        refine ((hnet.nodup_domain vs.length).sublist (hsearch.within.sublist vs.length)).sublist ?_
        rwa [domain_free]
      have hu : u ∈ domain r.vars vs.length := husub.subset List.mem_cons_self
      have horder := getElem?_order_of_static hstatic (hlength ▸ hx)
      rw [tryValues, partialsAfter_cons]
      refine Solver.Ensures.bind (Solver.Ensures.mono (Solver.Ensures.and
        (tryValue_ensures hnet hsearch hassigned hx horder hu hfinds)
        (tryValue_counts hnet hstatic hholding hassigned hx hu (hnext u))) ?_ fun _ _ _ => trivial)
      rintro _ r₁ ⟨⟨hrest, -⟩, hcounted⟩
      -- The value tried is overwritten by the next one: with the variable freed the state is the one before.
      have hfree : free r₁.vars vs.length = free r.vars vs.length := hrest.vars
      have hlength₁ : r₁.vars.length = r.vars.length := by
        simpa using congrArg List.length hfree
      have husub₁ : us.Sublist (domain r₁.vars vs.length) := by
        rw [← domain_free (x := vs.length), hfree, domain_free]
        exact (List.sublist_cons_self u us).trans husub
      have hrec := ih husub₁ (hfree ▸ hholding) (hrest.assigned.trans hassigned) (hlength₁ ▸ hx)
      refine hrec.mono ?_ fun _ _ _ => trivial
      exact fun _ r₂ hcounted' => hcounted.join hcounted' (disjoint_partials (List.nodup_cons.mp hnodup).1)

/-- Branching counts the partial solutions that go on with a value of the next variable. -/
theorem branch_counts (hholding : net.Holding vs r.vars) (hassigned : r.assigned = vs.length)
    (hx : vs.length < r.vars.length)
    (hfinds : ∀ r', net.Searching r'.vars (vs.length + 1) → r'.assigned = vs.length + 1 → net.Finds next r')
    (hnext : ∀ v r', net.Holding (vs ++ [v]) r'.vars → r'.assigned = vs.length + 1 →
      net.Counts (net.partialsFrom (vs ++ [v])) next r') :
    net.Counts (net.partialsAfter vs (domain net.vars vs.length)) (net.branch next vs.length) r := by
  have hself : free r.vars vs.length = r.vars := free_eq_self hholding.value?_next
  unfold branch
  refine Solver.ensures_update_bind (Solver.ensures_look_bind (Solver.ensures_update_bind ?_))
  refine Solver.Ensures.ensuring (Solver.Ensures.mono (tryValues_counts hnet hstatic (List.Sublist.refl _)
    (hself.symm ▸ hholding) (congrArg (· + 1) hassigned) hx hfinds hnext) ?_ fun _ _ _ => trivial)
  intro _ r' hcounted
  have hle : domain r.vars vs.length ⊆ domain net.vars vs.length :=
    (hholding.searching.within.sublist vs.length).subset
  have hall : net.Counted (net.partialsAfter vs (domain net.vars vs.length)) _ r' :=
    hcounted.mono (partialsAfter_mono hle) fun hp => congrArg _ (hholding.domain_eq hp vs.length)
  exact hall.between rfl rfl

/-- A call of the search counts the partial solutions that begin with the values held. -/
theorem search_counts (remaining : Nat) (hholding : net.Holding vs r.vars) (hassigned : r.assigned = vs.length)
    (hremaining : vs.length + remaining = r.vars.length) :
    net.Counts (net.partialsFrom vs) (net.search remaining) r := by
  have hlength := hholding.searching.length
  rw [partialsFrom_eq_insert (hholding.partialSolution (by omega))]
  induction remaining generalizing vs r with
  | zero =>
      refine Solver.ensures_update_bind (Solver.ensures_update ?_)
      refine (Counted.none rfl fun _ => ?_).insert rfl notMem_partialsAfter
      exact partialsAfter_eq_empty (by omega)
  | succ remaining ih =>
      refine Solver.ensures_update_bind (Solver.ensures_look_bind ?_)
      have hlt : vs.length < r.vars.length := by omega
      have hselect : net.config.heuristic.select net.constraints r.vars r.assigned = some vs.length := by
        rw [hstatic, Heuristic.select, hassigned, if_neg hlt.ne]
      dsimp only
      rw [hselect]
      refine Solver.Ensures.mono (branch_counts hnet hstatic hholding hassigned hlt ?_ ?_) ?_
        fun _ _ _ => trivial
      · intro r' hsearch' hassigned'
        refine search_finds hnet remaining r' (hassigned' ▸ hsearch') ?_
        rw [hassigned', hsearch'.length, ← hlength]
        omega
      · intro v r' hholding' hassigned'
        have hlength' := hholding'.searching.length
        rw [partialsFrom_eq_insert (hholding'.partialSolution (by simp; omega))]
        exact ih hholding' (by simpa using hassigned') (by simp; omega) hlength'
      · exact fun _ r' hcounted => hcounted.insert rfl notMem_partialsAfter

end Search

/-! ## Whole solves -/

/-- Some constraint without variables is false. -/
def ConstantFalse (net : Network) : Prop :=
  ∃ c ∈ net.constraints, c.scope = [] ∧ c.expr.eval [] = .ok (.bool false)

/-- Before the search, no variable holds a value. -/
theorem holding_nil (hnet : net.Linked) (hsearch : net.Searching net.vars 0) : net.Holding [] net.vars :=
  ⟨hsearch, fun x => hnet.value?_eq_none x, fun _ _ => rfl⟩

/-- A constraint without variables is as true under the variables as its predicate is. -/
theorem holds_of_scope_eq_nil {c : Constraint} (h : c.scope = []) (vars : List Variable) :
    c.holds vars = c.expr.eval [] >>= Constraint.truthOf := by
  rw [Constraint.holds, h]
  rfl

/-- Whether a constraint without variables is false is found out by checking those constraints. -/
theorem constantFalse_iff {vars : List Variable} : net.ConstantFalse ↔
    ∃ c ∈ net.constraintsOfArity 0, (net.constraintAt c).holds vars = .ok false := by
  constructor
  · rintro ⟨k, hk, hscope, hfalse⟩
    obtain ⟨c, hc, rfl⟩ := exists_constraintAt hk
    refine ⟨c, List.mem_filter.mpr ⟨List.mem_range.mpr hc, ?_⟩, ?_⟩
    · simp [Constraint.arity, hscope]
    · rw [holds_of_scope_eq_nil hscope, Constraint.bind_truthOf_eq_ok_iff.mpr hfalse]
  · rintro ⟨c, hc, hfalse⟩
    have hscope := List.length_eq_zero_iff.mp (length_scope_of_mem_constraintsOfArity hc)
    have hlt : c < net.constraints.length := List.mem_range.mp (List.mem_of_mem_filter hc)
    refine ⟨net.constraintAt c, ?_, hscope, ?_⟩
    · rw [constraintAt, List.getElem?_eq_getElem hlt]
      exact List.getElem_mem hlt
    · rwa [holds_of_scope_eq_nil hscope, Constraint.bind_truthOf_eq_ok_iff] at hfalse

/-- The states that a solve visits in declaration order without propagation: the partial solutions, unless a constraint
without variables is false. -/
def visitable (net : Network) : Set (Nat × List Value) :=
  {p | ¬ net.ConstantFalse ∧ net.PartialSolution p.1 p.2}

/-- What can be visited depends on the variables and the constraints alone. -/
theorem visitable_congr {net' : Network} (hvars : net'.vars = net.vars)
    (hconstraints : net'.constraints = net.constraints) : net'.visitable = net.visitable := by
  have hpartial : ∀ k vs, net'.PartialSolution k vs ↔ net.PartialSolution k vs := by
    intro k vs
    constructor
    · exact fun ⟨hle, hlength, hdomain, htrue⟩ =>
        ⟨hvars ▸ hle, hlength, hvars ▸ hdomain, hconstraints ▸ htrue⟩
    · exact fun ⟨hle, hlength, hdomain, htrue⟩ =>
        ⟨hvars ▸ hle, hlength, hvars ▸ hdomain, hconstraints ▸ htrue⟩
  simp only [visitable, ConstantFalse, hconstraints, hpartial]

/-- A whole solve counts the states that it can visit. -/
theorem explore_counts (hnet : net.Linked) (hstatic : net.config.heuristic = .static) (hvars : r.vars = net.vars)
    (hassigned : r.assigned = 0) : net.Counts net.visitable net.explore r := by
  have hwithin : net.Within r.vars := hvars ▸ hnet.within
  have hconstant : ∀ c ∈ net.constraintsOfArity 0, net.unassigned r.vars c = [] :=
    fun c hc => unassigned_eq_nil_of_mem_constraintsOfArity r.vars hc
  unfold explore
  refine Solver.Ensures.bind ((allHold_ensures _ r hwithin hconstant).mono ?_ fun _ _ _ => trivial)
  rintro b r₁ ⟨hquiet, hall⟩
  cases b with
  | true =>
      have hvars₁ : r₁.vars = net.vars := hquiet.vars.trans hvars
      have hholding : net.Holding [] r₁.vars := hvars₁ ▸ holding_nil hnet (searching_start hnet (hvars ▸ hall))
      have hnot : ¬ net.ConstantFalse := by
        intro hconstantFalse
        obtain ⟨c, hc, hfalse⟩ := constantFalse_iff.mp hconstantFalse
        rw [hall c hc] at hfalse
        cases hfalse
      have hvisitable : net.visitable = net.partialsFrom [] := by
        ext p
        simp [visitable, partialsFrom, hnot]
      have hpropagates := preprocess_propagates hnet { r₁ with trail := {} } hholding.searching.within
      rw [hvisitable]
      refine Solver.Ensures.bind (Solver.Ensures.mono (counts_undoing (p := net.partialsFrom []) hpropagates
        preprocess_of_plain ?_) ?_ fun _ _ _ => trivial)
      · intro r₂ hprunes hplain
        have hassigned₂ : r₂.assigned = 0 := hprunes.assigned.trans (hquiet.assigned.trans hassigned)
        have hholding₂ : net.Holding [] r₂.vars :=
          Holding.of_prunes (r := { r₁ with trail := {} }) hholding hprunes hplain
        have hcounts : net.Counts (net.partialsFrom []) (net.search net.vars.length)
            { r₂ with events := .searchBegun :: r₂.events } :=
          search_counts hnet hstatic _ hholding₂ hassigned₂
            ((Nat.zero_add _).trans hholding₂.searching.length.symm)
        refine Solver.ensures_update_bind (Solver.Ensures.mono hcounts ?_ fun _ _ _ => trivial)
        exact fun _ r₃ hcounted => hcounted.between rfl rfl
      · exact fun _ r₂ hcounted => hcounted.between hquiet.states rfl
  | false =>
      refine .none hquiet.states fun _ => Set.eq_empty_of_forall_notMem fun p hp => ?_
      exact hp.1 (constantFalse_iff.mpr hall)

/-- A solve that is not given up counts the states that it can visit. -/
theorem states_solve (hnet : net.Linked) (hstatic : net.config.heuristic = .static) {stats : Stats}
    (h : net.solve.result = .ok stats) :
    (stats.states : ℕ∞) ≤ net.visitable.encard ∧
      (net.config.Plain → (stats.states : ℕ∞) = net.visitable.encard) := by
  have hcounts : net.rewound.Counts net.rewound.visitable net.rewound.explore { vars := net.vars } :=
    explore_counts (hnet.rewound 0 {}) hstatic rfl rfl
  have hvisitable : net.rewound.visitable = net.visitable := visitable_congr rfl rfl
  rcases hrun : net.rewound.explore.run { vars := net.vars } with ⟨result, r⟩
  rw [solve_of_run hrun] at h
  cases result with
  | error e => cases h
  | ok u =>
      cases h
      obtain ⟨hle, heq⟩ := hcounts.of_run_ok hrun
      rw [hvisitable, show (({} : Stats).states : ℕ∞) = 0 from rfl, zero_add] at hle heq
      exact ⟨hle, heq⟩

variable {start : Network}

/-- In declaration order and without propagation, a solve that is not given up visits as many states as there are
partial solutions, or none if a constraint without variables is false. With propagation, whichever it is, it does not
visit more. -/
theorem states_configure_static (hbuilt : start.Built) (h : start.Reaches net) {stats : Stats}
    (hsolve : (net.configure { heuristic := .static }).solve.result = .ok stats) :
    (net.ConstantFalse → stats.states = 0) ∧
      (¬ net.ConstantFalse →
        (stats.states : ℕ∞) = {p : Nat × List Value | net.PartialSolution p.1 p.2}.encard) ∧
      ∀ config : Config, config.heuristic = .static →
        ∀ stats', (net.configure config).solve.result = .ok stats' → stats'.states ≤ stats.states := by
  have hnet := h.linked hbuilt
  have hvisitable : ∀ config, (net.configure config).visitable = net.visitable :=
    fun _ => visitable_congr rfl rfl
  obtain ⟨-, hplain⟩ := states_solve (hnet.configure _) rfl hsolve
  have hstates : (stats.states : ℕ∞) = net.visitable.encard := by
    rw [← hvisitable]
    exact hplain ⟨rfl, rfl, rfl, rfl⟩
  refine ⟨?_, ?_, ?_⟩
  · intro hfalse
    rw [visitable] at hstates
    simpa [hfalse] using hstates
  · intro hfalse
    rw [hstates, visitable]
    simp only [hfalse, not_false_eq_true, true_and]
  · intro config hstatic stats' hsolve'
    obtain ⟨hle, -⟩ := states_solve (hnet.configure config) hstatic hsolve'
    rw [hvisitable, ← hstates] at hle
    exact_mod_cast hle

/-- All propagation is on, and the order is that of the declarations. -/
def thorough : Config :=
  ⟨true, true, true, true, .static⟩

/-- In declaration order `ascending` has as many states without propagation as it has partial solutions, and not more
with it. -/
theorem states_configure_static_ascending :
    (ascending.configure { heuristic := .static }).solve.result = .ok ⟨1, 4, 4⟩ ∧
      ((4 : ℕ) : ℕ∞) = {p : Nat × List Value | ascending.PartialSolution p.1 p.2}.encard ∧
      (ascending.configure thorough).solve.result = .ok ⟨1, 3, 8⟩ ∧ 3 ≤ 4 := by
  have hplain : (ascending.configure { heuristic := .static }).solve.result = .ok ⟨1, 4, 4⟩ := by cbv
  have hthorough : (ascending.configure thorough).solve.result = .ok ⟨1, 3, 8⟩ := by cbv
  obtain ⟨-, hcount, hle⟩ := states_configure_static built_ascending .refl hplain
  have hnot : ¬ ascending.ConstantFalse := by simp [ConstantFalse, ascending]
  exact ⟨hplain, hcount hnot, hthorough, hle thorough rfl _ hthorough⟩

end Network

end FiniteDomain
