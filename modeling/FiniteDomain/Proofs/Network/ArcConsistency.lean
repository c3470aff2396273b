import Mathlib
import FiniteDomain.Proofs.Network.Fixpoint

/-!
# What arc consistency leaves

Around given constraints and changed variables arc consistency reaches a fixpoint, under whatever values are held
(`arcConsistency_reaches_fixpoint`).

Before the search no variable holds a value, and the arcs are those of the constraints with two variables. There is a
greatest family of subdomains in which every value of either variable has a support in the other: the union of all such
families (`isGreatest_largest`). Working off all arcs takes no value of such a family, and when it finds no conflict
what is left is such a family; so it ends with the greatest one, in whatever order constraints and arcs are taken
(`arcConsistency_greatest`).
-/

namespace FiniteDomain.Network

open Variables

variable {net : Network} {vars : List Variable} {F : Nat → Set Value} {r r' : Run} {work : List Arc} {arc : Arc}
  {x y c : Nat} {v w : Value} {k : Constraint}

/-! ## Arc consistency around given constraints and changed variables -/

/-- Under whatever values are held, arc consistency that finds no conflict has reached a fixpoint: each value left for
either open variable of a listed constraint has a support for the other, and so has each value left for the other open
variable of a constraint on a variable that had changed or has lost a value; no domain has been emptied. After a
conflict some domain is empty. In every case the values held are what they were, only domains of variables without a
value have got smaller, keeping their order, and the trail has received exactly the removals that lead there. -/
theorem arcConsistency_reaches_fixpoint {result : Except SolveError Verdict} (hnet : net.Linked)
    (hframe : frame r.vars = frame net.vars) {cs changed : List Nat} (hchanged : ∀ x ∈ changed, value? r.vars x = none)
    (hrun : (net.arcConsistency cs changed).run r = (result, r')) :
    (result = .ok .consistent →
      (∀ c ∈ cs, ∀ x y, net.unassigned r.vars c = [x, y] →
        Arc.Consistent net r'.vars ⟨x, y, c⟩ ∧ Arc.Consistent net r'.vars ⟨y, x, c⟩) ∧
      (∀ y, y ∈ changed ∨ domain r'.vars y ≠ domain r.vars y →
        ∀ c x, net.unassigned r.vars c = [x, y] ∨ net.unassigned r.vars c = [y, x] →
          Arc.Consistent net r'.vars ⟨x, y, c⟩) ∧
      ∀ x, domain r.vars x ≠ [] → domain r'.vars x ≠ []) ∧
    (result = .ok .conflict → ∃ x < r'.vars.length, domain r'.vars x = []) ∧
    (∀ x, value? r'.vars x = value? r.vars x) ∧
    (∀ x, (domain r'.vars x).Sublist (domain r.vars x)) ∧
    (∀ x, (value? r.vars x).isSome → domain r'.vars x = domain r.vars x) ∧
    ∃ removals, r'.trail.removals = removals ++ r.trail.removals ∧ Trail.Leads r.vars removals r'.vars := by
  have hworked := arcConsistency_workedOff hnet hframe hchanged hrun
  refine ⟨fun hresult => ⟨fun c hc x y hopen => ⟨?_, ?_⟩, fun y hy c x hjoins => ?_, hworked.nonempty hresult⟩,
    fun hresult => ?_, hworked.prunes.value?, hworked.prunes.sublist, fun x => hworked.prunes.domain_eq_of_held, ?_⟩
  · have hjoins : Arc.Joins net r.vars ⟨x, y, c⟩ := .inl hopen
    exact hworked.settled hresult _ hjoins (.inl (mem_initialArcs hnet hframe hjoins (.inl hc)))
  · have hjoins : Arc.Joins net r.vars ⟨y, x, c⟩ := .inr hopen
    exact hworked.settled hresult _ hjoins (.inl (mem_initialArcs hnet hframe hjoins (.inl hc)))
  · have hjoins : Arc.Joins net r.vars ⟨x, y, c⟩ := hjoins
    refine hworked.settled hresult _ hjoins ?_
    exact hy.imp (fun hy => mem_initialArcs hnet hframe hjoins (.inr hy)) .inr
  · obtain ⟨x, hx, -, hnil⟩ := hworked.dead hresult
    exact ⟨x, hx, hnil⟩
  · obtain ⟨removals, htrail, -, hleads⟩ := hworked.prunes.logged
    exact ⟨removals, htrail, hleads⟩

/-- What the first constraint leaves of the bound is a bound in the second. -/
def climbing : Network where
  vars := [⟨"A", [.int 0, .int 1], none, [0]⟩, ⟨"B", [.int 0, .int 1], none, [0, 1]⟩,
    ⟨"C", [.int 1, .int 2], none, [1]⟩, ⟨"D", [.int 0, .int 1], none, [0]⟩]
  constraints := [⟨"A + D <= B", .binary .le (.binary .add (.slot 1 "A") (.slot 2 "D")) (.slot 0 "B"), [1, 0, 3]⟩,
    ⟨"B < C", .binary .lt (.slot 0 "B") (.slot 1 "C"), [1, 2]⟩]

theorem linked_climbing : climbing.Linked := by
  have hlink : link [⟨"A", [.int 0, .int 1], none, []⟩, ⟨"B", [.int 0, .int 1], none, []⟩,
        ⟨"C", [.int 1, .int 2], none, []⟩, ⟨"D", [.int 0, .int 1], none, []⟩]
      [⟨"A + D <= B", .binary .le (.binary .add (.ident "A") (.ident "D")) (.ident "B"), []⟩,
        ⟨"B < C", .binary .lt (.ident "B") (.ident "C"), []⟩] = .ok climbing := by cbv
  exact linked_of_link hlink

/-- The state in which the offset is one, so that the first constraint leaves two variables open. -/
def climbingFromOne : Run where
  vars := assign climbing.vars 3 (.int 1)

/-- From the first constraint alone one value is left for the three open variables, for the last by way of the second
constraint. -/
theorem arcConsistency_reaches_fixpoint_climbing :
    ∃ r', (climbing.arcConsistency [0] []).run climbingFromOne = (.ok .consistent, r') ∧
      r'.vars.map (·.domain) = [[.int 0], [.int 1], [.int 2], [.int 0, .int 1]] ∧
      Arc.Consistent climbing r'.vars ⟨0, 1, 0⟩ ∧ Arc.Consistent climbing r'.vars ⟨2, 1, 1⟩ := by
  obtain ⟨r', hrun, hdomains⟩ : ∃ r', (climbing.arcConsistency [0] []).run climbingFromOne = (.ok .consistent, r') ∧
      r'.vars.map (·.domain) = [[.int 0], [.int 1], [.int 2], [.int 0, .int 1]] := by
    have h : ((climbing.arcConsistency [0] []).run climbingFromOne).map id (fun r' => r'.vars.map (·.domain))
        = (.ok .consistent, [[.int 0], [.int 1], [.int 2], [.int 0, .int 1]]) := by cbv
    obtain ⟨hresult, hdomains⟩ := Prod.mk.inj h
    exact ⟨_, run_eq_of_fst hresult, hdomains⟩
  obtain ⟨hconsistent, -⟩ := arcConsistency_reaches_fixpoint linked_climbing rfl (by simp) hrun
  obtain ⟨hlisted, hlost, -⟩ := hconsistent rfl
  have hlosing : domain r'.vars 1 ≠ domain climbingFromOne.vars 1 := by
    rw [domain, ← List.getElem?_map, hdomains]
    decide
  exact ⟨r', hrun, hdomains, (hlisted 0 (by simp) 1 0 (by decide)).2, hlost 1 (.inr hlosing) 1 2 (.inr (by decide))⟩

/-! ## Arc-consistent families -/

/-- Subdomains in which every value of either variable of a constraint with two variables has a support in the other. -/
structure ArcConsistent (net : Network) (vars : List Variable) (F : Nat → Set Value) : Prop where
  mem_domain : ∀ x, ∀ v ∈ F x, v ∈ domain vars x
  forward : ∀ k ∈ net.constraints, ∀ x y, k.scope = [x, y] →
    ∀ v ∈ F x, ∃ w ∈ F y, k.expr.eval [v, w] = .ok (.bool true)
  backward : ∀ k ∈ net.constraints, ∀ x y, k.scope = [x, y] →
    ∀ w ∈ F y, ∃ v ∈ F x, k.expr.eval [v, w] = .ok (.bool true)

/-- The values that some arc-consistent family has. -/
def largest (net : Network) (vars : List Variable) (x : Nat) : Set Value :=
  {v | ∃ F, net.ArcConsistent vars F ∧ v ∈ F x}

/-- All arc-consistent families together are one. -/
theorem arcConsistent_largest (net : Network) (vars : List Variable) : net.ArcConsistent vars (net.largest vars) := by
  refine ⟨?_, ?_, ?_⟩
  · rintro x v ⟨F, hF, hv⟩
    exact hF.mem_domain x v hv
  · rintro k hk x y hscope v ⟨F, hF, hv⟩
    obtain ⟨w, hw, htrue⟩ := hF.forward k hk x y hscope v hv
    exact ⟨w, ⟨F, hF, hw⟩, htrue⟩
  · rintro k hk x y hscope w ⟨F, hF, hw⟩
    obtain ⟨v, hv, htrue⟩ := hF.backward k hk x y hscope w hw
    exact ⟨v, ⟨F, hF, hv⟩, htrue⟩

theorem isGreatest_largest (net : Network) (vars : List Variable) :
    IsGreatest {F | net.ArcConsistent vars F} (net.largest vars) :=
  ⟨arcConsistent_largest net vars, fun F hF _ _ hv => ⟨F, hF, hv⟩⟩

/-! ## Arcs before the search -/

/-- While no variable holds a value the arcs are those of the constraints with two variables. -/
theorem joins_iff (hfree : ∀ z, value? vars z = none) : arc.Joins net vars ↔
    (net.constraintAt arc.constraint).scope = [arc.x, arc.y] ∨
      (net.constraintAt arc.constraint).scope = [arc.y, arc.x] := by
  have hscope : net.unassigned vars arc.constraint = (net.constraintAt arc.constraint).scope :=
    List.filter_eq_self.mpr fun z _ => by simp [hfree]
  rw [Arc.Joins, hscope]

/-- Every arc waits at first. -/
theorem mem_initialArcs_of_joins (hnet : net.Linked) (hframe : frame vars = frame net.vars)
    (hfree : ∀ z, value? vars z = none) (hjoins : arc.Joins net vars) {cs : List Nat}
    (hcs : cs.Perm (net.constraintsOfArity 2)) : arc ∈ net.initialArcs vars cs [] := by
  refine mem_initialArcs hnet hframe hjoins (.inl (hcs.mem_iff.mpr (mem_constraintsOfArity ?_)))
  rcases (joins_iff hfree).mp hjoins with h | h <;> rw [h] <;> rfl

/-- The constraint of an arc is one of the network. -/
theorem Arc.Joins.constraintAt_mem (hjoins : arc.Joins net vars) (hfree : ∀ z, value? vars z = none) :
    net.constraintAt arc.constraint ∈ net.constraints := by
  refine (net.constraintAt_mem_or_scope_eq_nil arc.constraint).resolve_right ?_
  rcases (joins_iff hfree).mp hjoins with h | h <;> simp [h]

section Evaluation

/-- A constraint with two variables that hold values is evaluated on the two. -/
theorem holds_of_pair (hscope : k.scope = [x, y]) (hx : value? vars x = some v) (hy : value? vars y = some w) :
    k.holds vars = k.expr.eval [v, w] >>= Constraint.truthOf := by
  rw [Constraint.holds, hscope]
  simp only [Constraint.slotValues, Constraint.slotValue, hx, hy]
  rfl

variable (hopen : arc.Open vars)
include hopen

theorem Arc.Open.value?_x : value? (assign (assign vars arc.x v) arc.y w) arc.x = some v := by
  rw [value?_assign_of_ne hopen.ne, value?_assign_self hopen.x_lt]

theorem Arc.Open.value?_y : value? (assign (assign vars arc.x v) arc.y w) arc.y = some w :=
  value?_assign_self (by simpa using hopen.y_lt)

/-- The two ends of an arc may stand in the constraint in the order of the arc. -/
theorem Arc.Open.holds_iff (hscope : (net.constraintAt arc.constraint).scope = [arc.x, arc.y]) :
    (net.constraintAt arc.constraint).holds (assign (assign vars arc.x v) arc.y w) = .ok true ↔
      (net.constraintAt arc.constraint).expr.eval [v, w] = .ok (.bool true) := by
  rw [holds_of_pair hscope hopen.value?_x hopen.value?_y, Constraint.bind_truthOf_eq_ok_iff]

/-- Or they stand the other way round. -/
theorem Arc.Open.holds_iff_swap (hscope : (net.constraintAt arc.constraint).scope = [arc.y, arc.x]) :
    (net.constraintAt arc.constraint).holds (assign (assign vars arc.x v) arc.y w) = .ok true ↔
      (net.constraintAt arc.constraint).expr.eval [w, v] = .ok (.bool true) := by
  rw [holds_of_pair hscope hopen.value?_y hopen.value?_x, Constraint.bind_truthOf_eq_ok_iff]

end Evaluation

/-- While no variable holds a value, the supported families are the arc-consistent ones. -/
theorem supported_iff (hnet : net.Linked) (hframe : frame vars = frame net.vars) (hfree : ∀ z, value? vars z = none) :
    net.Supported vars F ↔ net.ArcConsistent vars F := by
  constructor
  · intro h
    refine ⟨h.mem_domain, fun k hk x y hscope v hv => ?_, fun k hk x y hscope w hw => ?_⟩ <;>
      obtain ⟨c, -, rfl⟩ := exists_constraintAt hk
    · have hjoins : Arc.Joins net vars ⟨x, y, c⟩ := (joins_iff hfree).mpr (.inl hscope)
      obtain ⟨w, hw, hholds⟩ := h.support _ hjoins v hv
      exact ⟨w, hw, ((hjoins.isOpen hnet hframe).holds_iff hscope).mp hholds⟩
    · have hjoins : Arc.Joins net vars ⟨y, x, c⟩ := (joins_iff hfree).mpr (.inr hscope)
      obtain ⟨v, hv, hholds⟩ := h.support _ hjoins w hw
      exact ⟨v, hv, ((hjoins.isOpen hnet hframe).holds_iff_swap hscope).mp hholds⟩
  · intro h
    refine ⟨h.mem_domain, fun arc hjoins v hv => ?_⟩
    have hopen := hjoins.isOpen hnet hframe
    have hmem := hjoins.constraintAt_mem hfree
    rcases (joins_iff hfree).mp hjoins with hscope | hscope
    · obtain ⟨w, hw, htrue⟩ := h.forward _ hmem _ _ hscope v hv
      exact ⟨w, hw, (hopen.holds_iff hscope).mpr htrue⟩
    · obtain ⟨w, hw, htrue⟩ := h.backward _ hmem _ _ hscope v hv
      exact ⟨w, hw, (hopen.holds_iff_swap hscope).mpr htrue⟩

/-! ## What working off all arcs comes to -/

/-- No constraint with two variables fails on values left for them. -/
def DecidesPairs (net : Network) (vars : List Variable) : Prop :=
  ∀ k ∈ net.constraints, ∀ x y, k.scope = [x, y] →
    ∀ v ∈ domain vars x, ∀ w ∈ domain vars y, ∃ b, k.expr.eval [v, w] = .ok (.bool b)

/-- Then no arc fails. -/
theorem DecidesPairs.not_fails {e : SolveError} (h : net.DecidesPairs vars) (hfree : ∀ z, value? vars z = none)
    (hjoins : arc.Joins net vars) (hopen : arc.Open vars) : ¬ arc.Fails net vars e := by
  rintro ⟨v, hv, w, hw, -, hcause⟩
  have hmem := hjoins.constraintAt_mem hfree
  rcases (joins_iff hfree).mp hjoins with hscope | hscope
  · obtain ⟨b, hb⟩ := h _ hmem _ _ hscope v hv w hw
    rw [holds_of_pair hscope hopen.value?_x hopen.value?_y, hb] at hcause
    cases hcause
  · obtain ⟨b, hb⟩ := h _ hmem _ _ hscope w hw v hv
    rw [holds_of_pair hscope hopen.value?_y hopen.value?_x, hb] at hcause
    cases hcause

/-- What is left without a conflict is an arc-consistent family, if every arc waited at first. -/
theorem Settled.arcConsistent (h : net.Settled work r r') (hnet : net.Linked) (hframe : frame r.vars = frame net.vars)
    (hfree : ∀ z, value? r.vars z = none) (hwork : ∀ arc : Arc, arc.Joins net r.vars → arc ∈ work)
    (hprunes : Prunes net r r') : net.ArcConsistent r.vars fun x => {v | v ∈ domain r'.vars x} := by
  have hleft : net.Supported r'.vars fun x => {v | v ∈ domain r'.vars x} := by
    refine ⟨fun _ _ hv => hv, fun arc hjoins => ?_⟩
    have hbefore := hjoins.of_pruned hprunes
    exact h arc hbefore (.inl (hwork arc hbefore))
  obtain ⟨-, hforward, hbackward⟩ := (supported_iff hnet (hprunes.frame.trans hframe)
    fun z => (hprunes.value? z).trans (hfree z)).mp hleft
  exact ⟨fun x v hv => (hprunes.sublist x).subset hv, hforward, hbackward⟩

open Classical in
/-- Working off all arcs ends with the greatest arc-consistent family, or with a conflict if that has an empty
member. -/
theorem WorkedOff.greatest {result : Except SolveError Verdict} (h : net.WorkedOff work r result r')
    (hnet : net.Linked) (hframe : frame r.vars = frame net.vars) (hfree : ∀ z, value? r.vars z = none)
    (hnonempty : ∀ x < r.vars.length, domain r.vars x ≠ []) (hdecides : net.DecidesPairs r.vars)
    (hwork : ∀ arc : Arc, arc.Joins net r.vars → arc ∈ work) :
    ∃ verdict, result = .ok verdict ∧
      (verdict = .conflict ↔ ∃ x < r.vars.length, net.largest r.vars x = ∅) ∧
      (verdict = .consistent → r'.vars = restrict r.vars fun x v => v ∈ net.largest r.vars x) := by
  cases result with
  | error e =>
      obtain ⟨arc, hjoins, hfails⟩ := h.fails e rfl
      exact absurd hfails (hdecides.not_fails hfree hjoins (hjoins.isOpen hnet hframe))
  | ok verdict =>
      refine ⟨verdict, rfl, ?_⟩
      have hnarrows := h.narrows verdict rfl
      have hkept := hnarrows.mem_of_supported _
        ((supported_iff hnet hframe hfree).mpr (arcConsistent_largest net r.vars))
      cases verdict with
      | conflict =>
          refine ⟨⟨fun _ => ?_, fun _ => rfl⟩, (nomatch ·)⟩
          obtain ⟨x, hx, -, hnil⟩ := h.dead rfl
          refine ⟨x, h.prunes.length ▸ hx, Set.eq_empty_iff_forall_notMem.mpr fun v hv => ?_⟩
          have hmem := hkept x v hv
          rw [hnil] at hmem
          cases hmem
      | consistent =>
          have hleft := (h.settled rfl).arcConsistent hnet hframe hfree hwork h.prunes
          have hiff : ∀ x v, v ∈ domain r'.vars x ↔ v ∈ net.largest r.vars x :=
            fun x v => ⟨fun hv => ⟨_, hleft, hv⟩, hkept x v⟩
          refine ⟨⟨(nomatch ·), ?_⟩, fun _ => ?_⟩
          · rintro ⟨x, hx, hempty⟩
            obtain ⟨v, hv⟩ := List.exists_mem_of_ne_nil _ (h.nonempty rfl x (hnonempty x hx))
            rw [hiff, hempty] at hv
            exact hv.elim
          · refine eq_restrict h.prunes.frame h.prunes.value? fun x => ?_
            rw [hnarrows.filtered x]
            exact List.filter_congr fun v _ => decide_eq_decide.mpr (hiff x v)

open Classical in
/-- Before the search, with values for every variable and no constraint with two variables failing on any pair of them,
arc consistency finds a conflict exactly if the greatest family of arc-consistent subdomains has an empty member, and
otherwise leaves of every domain the member of that family, in the order it had. So it is whatever the order of the
constraints, and in whatever order the arcs are taken from the worklist. -/
theorem arcConsistency_greatest (hnet : net.Linked) (hframe : frame r.vars = frame net.vars)
    (hfree : ∀ z, value? r.vars z = none) (hnonempty : ∀ x < r.vars.length, domain r.vars x ≠ [])
    (hdecides : net.DecidesPairs r.vars) :
    ∃ G, IsGreatest {F | net.ArcConsistent r.vars F} G ∧
      ∃ verdict, (verdict = .conflict ↔ ∃ x < r.vars.length, G x = ∅) ∧
        ∀ cs : List Nat, cs.Perm (net.constraintsOfArity 2) →
          (∃ r', (net.arcConsistency cs []).run r = (.ok verdict, r') ∧
            (verdict = .consistent → r'.vars = restrict r.vars fun x v => v ∈ G x)) ∧
          ∀ result r', net.WorksOff (net.initialArcs r.vars cs []) r result r' →
            result = .ok verdict ∧ (verdict = .consistent → r'.vars = restrict r.vars fun x v => v ∈ G x) := by
  -- Working off the arcs comes to the same in whatever order, and from the top it is what is done.
  have hends : ∀ cs : List Nat, cs.Perm (net.constraintsOfArity 2) → ∀ result r',
      net.WorksOff (net.initialArcs r.vars cs []) r result r' → ∃ verdict,
        result = .ok verdict ∧ (verdict = .conflict ↔ ∃ x < r.vars.length, net.largest r.vars x = ∅) ∧
          (verdict = .consistent → r'.vars = restrict r.vars fun x v => v ∈ net.largest r.vars x) := by
    intro cs hcs result r' hworks
    have hworked := hworks.workedOff hnet hframe (joins_initialArcs hnet hframe cs [] (by simp))
    exact hworked.greatest hnet hframe hfree hnonempty hdecides
      fun arc harc => mem_initialArcs_of_joins hnet hframe hfree harc hcs
  obtain ⟨verdict, -, hverdict, -⟩ := hends _ (.refl _) _ _ (worksOff_reviseAll net _ r)
  refine ⟨net.largest r.vars, isGreatest_largest net r.vars, verdict, hverdict, fun cs hcs => ?_⟩
  have hsame : ∀ result r', net.WorksOff (net.initialArcs r.vars cs []) r result r' → result = .ok verdict ∧
      (verdict = .consistent → r'.vars = restrict r.vars fun x v => v ∈ net.largest r.vars x) := by
    intro result r' hworks
    obtain ⟨verdict', hresult, hverdict', hvars⟩ := hends cs hcs result r' hworks
    have hiff := hverdict'.trans hverdict.symm
    obtain rfl : verdict' = verdict := by cases verdict <;> cases verdict' <;> simp_all
    exact ⟨hresult, hvars⟩
  obtain ⟨hresult, hvars⟩ := hsame _ _ (worksOff_reviseAll net _ r)
  exact ⟨⟨_, Prod.ext hresult rfl, hvars⟩, hsame⟩

/-- The second variable is above the first and differs from the third. -/
def ranked : Network where
  vars := [⟨"A", [.int 0, .int 1], none, [0]⟩, ⟨"B", [.int 0, .int 1], none, [0, 1]⟩,
    ⟨"C", [.int 0, .int 1], none, [1]⟩]
  constraints := [⟨"A < B", .binary .lt (.slot 0 "A") (.slot 1 "B"), [0, 1]⟩,
    ⟨"B != C", .binary .ne (.slot 0 "B") (.slot 1 "C"), [1, 2]⟩]

theorem linked_ranked : ranked.Linked := by
  have hlink : link [⟨"A", [.int 0, .int 1], none, []⟩, ⟨"B", [.int 0, .int 1], none, []⟩,
        ⟨"C", [.int 0, .int 1], none, []⟩]
      [⟨"A < B", .binary .lt (.ident "A") (.ident "B"), []⟩, ⟨"B != C", .binary .ne (.ident "B") (.ident "C"), []⟩]
        = .ok ranked := by cbv
  exact linked_of_link hlink

/-- The state before the search. -/
def rankedRun : Run where
  vars := ranked.vars

theorem decidesPairs_ranked : ranked.DecidesPairs rankedRun.vars := by
  intro k hk x y hscope v hv w hw
  simp only [ranked, List.mem_cons, List.not_mem_nil, or_false] at hk
  rcases hk with rfl | rfl <;> cases hscope
  all_goals
    have hv : v = .int 0 ∨ v = .int 1 := by simpa [rankedRun, ranked, domain] using hv
    have hw : w = .int 0 ∨ w = .int 1 := by simpa [rankedRun, ranked, domain] using hw
    rcases hv with rfl | rfl <;> rcases hw with rfl | rfl <;> exact ⟨_, rfl⟩

open Classical in
/-- One value is left for each variable, in whatever order the two constraints are given. -/
theorem arcConsistency_greatest_ranked :
    ∃ G r₁ r₂, IsGreatest {F | ranked.ArcConsistent ranked.vars F} G ∧
      (ranked.arcConsistency [0, 1] []).run rankedRun = (.ok .consistent, r₁) ∧
      (ranked.arcConsistency [1, 0] []).run rankedRun = (.ok .consistent, r₂) ∧
      r₁.vars.map (·.domain) = [[.int 0], [.int 1], [.int 0]] ∧ r₂.vars = r₁.vars ∧ Value.int 1 ∉ G 0 := by
  obtain ⟨r₁, hrun₁, hdomains⟩ : ∃ r₁, (ranked.arcConsistency [0, 1] []).run rankedRun = (.ok .consistent, r₁) ∧
      r₁.vars.map (·.domain) = [[.int 0], [.int 1], [.int 0]] := by
    have h : ((ranked.arcConsistency [0, 1] []).run rankedRun).map id (fun r' => r'.vars.map (·.domain))
        = (.ok .consistent, [[.int 0], [.int 1], [.int 0]]) := by cbv
    obtain ⟨hresult, hdomains⟩ := Prod.mk.inj h
    exact ⟨_, run_eq_of_fst hresult, hdomains⟩
  have hfree : ∀ z, value? rankedRun.vars z = none := linked_ranked.value?_eq_none
  have hnonempty : ∀ x < rankedRun.vars.length, domain rankedRun.vars x ≠ [] := by decide
  obtain ⟨G, hgreatest, verdict, -, hsame⟩ :=
    arcConsistency_greatest linked_ranked rfl hfree hnonempty decidesPairs_ranked
  obtain ⟨⟨r', hrun, hvars⟩, -⟩ := hsame [0, 1] (by decide)
  obtain ⟨⟨r₂, hrun₂, hvars₂⟩, -⟩ := hsame [1, 0] (by decide)
  rw [hrun₁] at hrun
  obtain ⟨hverdict, rfl⟩ := Prod.mk.inj hrun
  cases hverdict
  refine ⟨G, r₁, r₂, hgreatest, hrun₁, hrun₂, hdomains, (hvars₂ rfl).trans (hvars rfl).symm, fun hone => ?_⟩
  have hdomain : domain r₁.vars 0 = [.int 0] := by
    rw [domain, ← List.getElem?_map, hdomains]
    rfl
  rw [hvars rfl, domain_restrict] at hdomain
  have hmem : Value.int 1 ∈ [Value.int 0] := by
    rw [← hdomain]
    exact List.mem_filter.mpr ⟨by decide, decide_eq_true hone⟩
  simp at hmem

end FiniteDomain.Network
