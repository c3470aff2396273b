import FiniteDomain.Network.NodeConsistency
import FiniteDomain.Proofs.Network.Failures
import FiniteDomain.Proofs.Network.Sifting

/-!
# Node consistency filters

A constraint with one open variable is a test on the values of that variable. Values are tested by giving them to the
variable for the time of an evaluation; freeing it afterwards restores it, whether the evaluation succeeds or fails, and
what is left of its domain are the values that make the constraint true (`Filtered`). Going through a list of
constraints leaves of every domain the values that pass all of those on its variable, unless no value passes
(`NodeFiltered`); so the order of the list has no influence on what comes out (`nodeConsistency_filters`).
-/

namespace FiniteDomain.Network

open Variables

variable {net : Network} {vars vars' : List Variable} {r r₁ r' : Run} {cs : List Nat} {c x : Nat} {v : Value}

/-! ## Values that make a constraint true -/

/-- The value `v` for `x` makes the constraint `c` true. -/
def Admits (net : Network) (vars : List Variable) (c x : Nat) (v : Value) : Prop :=
  (net.constraintAt c).holds (assign vars x v) = .ok true

instance (net : Network) (vars : List Variable) (c x : Nat) (v : Value) :
    Decidable (net.Admits vars c x v) :=
  inferInstanceAs (Decidable (_ = _))

/-- Whether a value makes a constraint true depends on the values that the variables of the constraint hold. -/
theorem Admits.congr (h : net.Admits vars c x v) (hlength : vars'.length = vars.length)
    (hvalue : ∀ z ∈ (net.constraintAt c).scope, value? vars' z = value? vars z) : net.Admits vars' c x v := by
  unfold Admits at h ⊢
  rw [Constraint.holds_congr (fun z hz => value?_assign_congr hlength (hvalue z hz)) (Constraint.isSome_of_holds h)]
  exact h

theorem admits_congr (h : Prunes net r r') : net.Admits r'.vars c x v ↔ net.Admits r.vars c x v := by
  rw [Admits, Admits, h.holds_assign]

/-- Every value left for the only open variable of the constraint makes it true. -/
def NodeConsistent (net : Network) (vars : List Variable) (c : Nat) : Prop :=
  ∀ x, net.unassigned vars c = [x] → ∀ v ∈ domain vars x, net.Admits vars c x v

/-- Pruning keeps a constraint node consistent. -/
theorem NodeConsistent.of_prunes (h : net.NodeConsistent r.vars c) (hprunes : Prunes net r r') :
    net.NodeConsistent r'.vars c := by
  intro x hopen v hv
  rw [unassigned_congr hprunes.value?] at hopen
  exact (admits_congr hprunes).mpr (h x hopen v ((hprunes.sublist x).subset hv))

/-- Some value left for `x` makes the evaluation of the constraint fail. -/
def FailsOn (net : Network) (vars : List Variable) (c x : Nat) (e : SolveError) : Prop :=
  ∃ v ∈ domain vars x, net.Fails (assign vars x v) c e

/-- What fails after pruning failed before. -/
theorem FailsOn.of_prunes {e : SolveError} (h : net.FailsOn r'.vars c x e) (hprunes : Prunes net r r') :
    net.FailsOn r.vars c x e := by
  obtain ⟨v, hv, hsource, hcause⟩ := h
  exact ⟨v, (hprunes.sublist x).subset hv, hsource, (hprunes.holds_assign _ x v).symm.trans hcause⟩

/-- A constraint with one open variable fails only as it does on values of the domains. -/
theorem FailsOn.genuine {e : SolveError} (h : net.FailsOn vars c x e) (hwithin : net.Within vars)
    (hopen : net.unassigned vars c = [x]) : net.Genuine e := by
  obtain ⟨v, hv, hfails⟩ := h
  exact hfails.genuine_of_assign hwithin hopen (hwithin.mem_domain hv)

/-! ## Filtering one domain -/

/-- Removing a value that violates a constraint prunes. -/
theorem prunes_removeValue_of_violated {position : Nat} (hget : (domain r.vars x)[position]? = some v)
    (hfree : value? r.vars x = none) (hholds : (net.constraintAt c).holds (assign r.vars x v) = .ok false) :
    Prunes net r (r.removeValue x position) := by
  refine prunes_removeValue hget hfree ?_
  -- An assignment that gives `x` this value extends the variables of the test.
  intro a hs ha hv
  exact Constraint.not_satisfiedBy_of_holds (ha.assign hv) hholds (hs.constraintAt c)

/-- What filtering the domain of `x` for the constraint `c` comes to: it prunes, it leaves the other domains alone, and
of that of `x` it leaves the values that make the constraint true, in their order. -/
structure Filtered (net : Network) (c x : Nat) (r r' : Run) : Prop where
  prunes : Prunes net r r'
  filtered : domain r'.vars x = (domain r.vars x).filter (net.Admits r.vars c x ·)
  domain_eq : ∀ y, y ≠ x → domain r'.vars y = domain r.vars y

/-- Filtering a domain from a position on keeps its promises, seen from states in which the tested variable is freed. -/
theorem filterFrom_ensures (net : Network) (c x : Nat) (start : Run) (vs : List Value) (position : Nat) (r : Run)
    (h : Sifting net x (net.Admits start.vars c x ·) start position vs (r.free x)) :
    (net.filterFrom c x position vs).Ensures r
      (fun _ r' => Filtered net c x start (r'.free x))
      (fun e r' => Prunes net start (r'.free x) ∧ net.FailsOn start.vars c x e) := by
  induction vs generalizing position r with
  | nil => exact ⟨h.prunes, h.domain_eq_filter, h.domain_eq⟩
  | cons v vs ih =>
      rw [filterFrom]
      refine Solver.ensures_update_bind (Solver.Ensures.bind ?_)
      -- The value given for the test does not show once the variable is freed.
      have hfreed : Quiet (r.free x) ((r.assign x v).free x) :=
        ⟨free_assign, rfl, rfl, rfl, rfl, rfl⟩
      have htest : assign (r.free x).vars x v = (r.assign x v).vars := assign_free
      refine (check_ensures net c (r.assign x v)).mono ?_ ?_
      · rintro b r₁ ⟨hquiet, hholds⟩
        rw [← htest] at hholds
        have hquiet₁ : Quiet (r.free x) (r₁.free x) := hfreed.trans (hquiet.free x)
        have h₁ := h.quiet hquiet₁
        have hadmits : net.Admits start.vars c x v ↔ b = true := by
          rw [← admits_congr h.prunes, Admits, hholds, Except.ok.injEq]
        cases b with
        | true => exact ih (position + 1) r₁ (h₁.keep (decide_eq_true (hadmits.mpr rfl)))
        | false =>
            refine Solver.ensures_update_bind (ih position _ ?_)
            rw [removeValue_free]
            refine h₁.remove (decide_eq_false fun hv => by simpa using hadmits.mp hv) ?_
            rw [← hquiet₁.vars] at hholds
            exact prunes_removeValue_of_violated (getElem?_of_drop h₁.drop) value?_free_self hholds
      · rintro e r₁ ⟨hquiet, hfails⟩
        rw [← htest] at hfails
        refine ⟨h.prunes.trans (hfreed.trans (hquiet.free x)).prunes, ?_⟩
        exact FailsOn.of_prunes ⟨v, List.mem_of_getElem? (getElem?_of_drop h.drop), hfails⟩ h.prunes

/-- Filtering the domain of a variable without a value keeps its promises. -/
theorem filterDomain_ensures (net : Network) (c : Nat) (hfree : value? r.vars x = none) :
    (net.filterDomain c x).Ensures r (fun _ r' => Filtered net c x r r')
      (fun e r' => Prunes net r r' ∧ net.FailsOn r.vars c x e) := by
  have hself : r.free x = r := by
    rw [Run.free, free_eq_self hfree]
  refine Solver.ensures_look_bind (Solver.Ensures.ensuring ?_)
  exact filterFrom_ensures net c x r _ 0 r (hself.symm ▸ Sifting.refl net x _ r)

/-! ## Filtering for a list of constraints -/

/-- The value `v` for `x` makes every constraint of the list true that leaves `x` and nothing else open. -/
def Passes (net : Network) (vars : List Variable) (cs : List Nat) (x : Nat) (v : Value) : Prop :=
  ∀ c ∈ cs, net.unassigned vars c = [x] → net.Admits vars c x v

instance (net : Network) (vars : List Variable) (cs : List Nat) (x : Nat) :
    DecidablePred (net.Passes vars cs x) :=
  fun v => inferInstanceAs (Decidable (∀ c ∈ cs, net.unassigned vars c = [x] → net.Admits vars c x v))

theorem passes_congr (h : Prunes net r r') : net.Passes r'.vars cs x v ↔ net.Passes r.vars cs x v := by
  simp only [Passes, admits_congr h, unassigned_congr h.value?]

theorem passes_cons : net.Passes vars (c :: cs) x v ↔
    (net.unassigned vars c = [x] → net.Admits vars c x v) ∧ net.Passes vars cs x v :=
  List.forall_mem_cons

/-- What going through a list of constraints comes to: it prunes, and without a conflict every domain has the values
left that pass, in their order, and no domain is empty that had values or was filtered. After a conflict no value passes
for one of the open variables, whose domain is empty. -/
structure NodeFiltered (net : Network) (cs : List Nat) (r : Run) (verdict : Verdict) (r' : Run) : Prop where
  prunes : Prunes net r r'
  filtered : verdict = .consistent → ∀ x, domain r'.vars x = (domain r.vars x).filter (net.Passes r.vars cs x ·)
  nonempty : verdict = .consistent → ∀ x, domain r.vars x ≠ [] ∨ (∃ c ∈ cs, net.unassigned r.vars c = [x]) →
    domain r'.vars x ≠ []
  emptied : verdict = .conflict → ∃ c ∈ cs, ∃ x, net.unassigned r.vars c = [x] ∧ domain r'.vars x = [] ∧
    (domain r.vars x).filter (net.Passes r.vars cs x ·) = []

/-- What the constraint at the front leaves is filtered for those that follow. -/
theorem NodeFiltered.cons {verdict : Verdict} (h : net.NodeFiltered cs r₁ verdict r') (hprunes : Prunes net r r₁)
    (hfront : ∀ x, domain r₁.vars x
      = (domain r.vars x).filter fun v => net.unassigned r.vars c = [x] → net.Admits r.vars c x v)
    (hnonempty : ∀ x, domain r.vars x ≠ [] ∨ net.unassigned r.vars c = [x] → domain r₁.vars x ≠ []) :
    net.NodeFiltered (c :: cs) r verdict r' := by
  have hunassigned : ∀ c, net.unassigned r₁.vars c = net.unassigned r.vars c := unassigned_congr hprunes.value?
  have hfilter : ∀ x, (domain r₁.vars x).filter (net.Passes r₁.vars cs x ·)
      = (domain r.vars x).filter (net.Passes r.vars (c :: cs) x ·) := by
    intro x
    rw [hfront, List.filter_filter]
    refine List.filter_congr fun v _ => ?_
    rw [← Bool.decide_and, decide_eq_decide, passes_congr hprunes, passes_cons, and_comm]
  refine ⟨hprunes.trans h.prunes, fun hverdict x => ?_, fun hverdict x hx => ?_, fun hverdict => ?_⟩
  · rw [h.filtered hverdict, hfilter]
  · refine h.nonempty hverdict x ?_
    simp only [List.mem_cons, exists_eq_or_imp] at hx
    rcases hx with hx | hx | ⟨c', hc', hx⟩
    · exact .inl (hnonempty x (.inl hx))
    · exact .inl (hnonempty x (.inr hx))
    · exact .inr ⟨c', hc', (hunassigned c').trans hx⟩
  · obtain ⟨c', hc', x, hopen, hnil, hnone⟩ := h.emptied hverdict
    exact ⟨c', List.mem_cons_of_mem c hc', x, hunassigned c' ▸ hopen, hnil, hfilter x ▸ hnone⟩

/-- A constraint is no test on a variable that is not the only one it leaves open. -/
theorem filter_of_unassigned_ne (h : net.unassigned vars c ≠ [x]) :
    (domain vars x).filter (fun v => net.unassigned vars c = [x] → net.Admits vars c x v) = domain vars x :=
  List.filter_eq_self.mpr (by simp [h])

/-- Filtering one domain is filtering all domains for the one constraint. -/
theorem Filtered.domain_eq_filter (h : Filtered net c x r r') (hopen : net.unassigned r.vars c = [x]) (y : Nat) :
    domain r'.vars y
      = (domain r.vars y).filter fun v => net.unassigned r.vars c = [y] → net.Admits r.vars c y v := by
  by_cases hy : y = x
  · rw [hy, h.filtered]
    simp only [hopen, forall_const]
  · have hne : net.unassigned r.vars c ≠ [y] := by
      rw [hopen]
      simpa using Ne.symm hy
    rw [h.domain_eq y hy, filter_of_unassigned_ne hne]

/-- Node consistency for constraints that leave at most one variable open keeps its promises, and fails only where one
of them fails on a value left for its open variable. -/
theorem nodeConsistency_ensures (hnet : net.Linked) (cs : List Nat) (r : Run) (hframe : frame r.vars = frame net.vars)
    (hcs : ∀ c ∈ cs, (net.unassigned r.vars c).length ≤ 1) :
    (net.nodeConsistency cs).Ensures r (net.NodeFiltered cs r)
      (fun e r' => Prunes net r r' ∧ ∃ c ∈ cs, ∃ x, net.unassigned r.vars c = [x] ∧ net.FailsOn r.vars c x e) := by
  induction cs generalizing r with
  | nil => exact ⟨Prunes.refl net r, fun _ x => (List.filter_eq_self.mpr (by simp [Passes])).symm, by simp, by simp⟩
  | cons c cs ih =>
      rw [nodeConsistency]
      refine Solver.ensures_look_bind ?_
      -- The others are looked at from what the constraint at the front leaves.
      have hrest : ∀ r₁, Prunes net r r₁ →
          (∀ x, domain r₁.vars x
            = (domain r.vars x).filter fun v => net.unassigned r.vars c = [x] → net.Admits r.vars c x v) →
          (∀ x, domain r.vars x ≠ [] ∨ net.unassigned r.vars c = [x] → domain r₁.vars x ≠ []) →
          (net.nodeConsistency cs).Ensures r₁ (net.NodeFiltered (c :: cs) r) (fun e r' => Prunes net r r' ∧
            ∃ c' ∈ c :: cs, ∃ x, net.unassigned r.vars c' = [x] ∧ net.FailsOn r.vars c' x e) := by
        intro r₁ hprunes hfront hnonempty
        have hunassigned : ∀ c, net.unassigned r₁.vars c = net.unassigned r.vars c := unassigned_congr hprunes.value?
        have hcs₁ : ∀ c' ∈ cs, (net.unassigned r₁.vars c').length ≤ 1 := fun c' hc' =>
          hunassigned c' ▸ hcs c' (List.mem_cons_of_mem c hc')
        refine (ih r₁ (hprunes.frame.trans hframe) hcs₁).mono (fun _ _ h => h.cons hprunes hfront hnonempty) ?_
        rintro e r' ⟨hprunes', c', hc', x, hopen, hfails⟩
        exact ⟨hprunes.trans hprunes', c', List.mem_cons_of_mem c hc', x, hunassigned c' ▸ hopen,
          hfails.of_prunes hprunes⟩
      cases hunassigned : net.unassigned r.vars c with
      | nil =>
          exact hrest r (Prunes.refl net r) (fun x => (filter_of_unassigned_ne (by simp [hunassigned])).symm)
            (by simp [hunassigned])
      | cons x xs =>
          have hx := hnet.of_mem_unassigned hframe (hunassigned ▸ List.mem_cons_self)
          have hopen : net.unassigned r.vars c = [x] := by
            have hlength := hcs c List.mem_cons_self
            rw [hunassigned, List.length_cons] at hlength
            rw [hunassigned, List.length_eq_zero_iff.mp (show xs.length = 0 by omega)]
          refine Solver.Ensures.bind ((filterDomain_ensures net c hx.2).mono ?_ ?_)
          · intro _ r₁ hfiltered
            have hfront := hfiltered.domain_eq_filter hopen
            refine Solver.ensures_look_bind ?_
            by_cases hd : (domain r₁.vars x).isEmpty
            · -- The domain that has become empty is the one reported.
              rw [if_pos hd]
              have hnil := List.isEmpty_iff.mp hd
              refine ⟨hfiltered.prunes, by simp, by simp,
                fun _ => ⟨c, List.mem_cons_self, x, hopen, hnil, ?_⟩⟩
              rw [hfiltered.filtered] at hnil
              refine List.filter_eq_nil_iff.mpr fun v hv hpasses => ?_
              have hadmits := (passes_cons.mp (of_decide_eq_true hpasses)).1 hopen
              exact List.filter_eq_nil_iff.mp hnil v hv (decide_eq_true hadmits)
            · rw [if_neg hd]
              refine hrest r₁ hfiltered.prunes hfront fun y hy => ?_
              by_cases hyx : y = x
              · rw [hyx]
                exact fun hnil => hd (by simp [hnil])
              · rw [hfiltered.domain_eq y hyx]
                refine hy.resolve_right ?_
                rw [hopen]
                simpa using Ne.symm hyx
          · exact fun e r₁ h => ⟨h.1, c, List.mem_cons_self, x, hopen, h.2⟩

/-! ## The order of the constraints -/

theorem passes_perm {cs' : List Nat} (hperm : cs'.Perm cs) : net.Passes vars cs' x v ↔ net.Passes vars cs x v :=
  ⟨fun h c hc => h c (hperm.mem_iff.mpr hc), fun h c hc => h c (hperm.mem_iff.mp hc)⟩

theorem restrict_passes_perm {cs' : List Nat} (hperm : cs'.Perm cs) :
    restrict vars (net.Passes vars cs') = restrict vars (net.Passes vars cs) := by
  simp only [restrict, passes_perm hperm]

namespace NodeFiltered

variable {verdict : Verdict}

/-- There is no conflict exactly if some value passes for every open variable. -/
theorem verdict_iff (h : net.NodeFiltered cs r verdict r') : verdict = .consistent ↔
    ∀ c ∈ cs, ∀ x, net.unassigned r.vars c = [x] → (domain r.vars x).filter (net.Passes r.vars cs x ·) ≠ [] := by
  constructor
  · intro hverdict c hc x hopen
    rw [← h.filtered hverdict]
    exact h.nonempty hverdict x (.inr ⟨c, hc, hopen⟩)
  · intro hall
    cases verdict with
    | consistent => rfl
    | conflict =>
        obtain ⟨c, hc, x, hopen, -, hnone⟩ := h.emptied rfl
        exact absurd hnone (hall c hc x hopen)

/-- The order of the constraints has no influence on whether there is a conflict. -/
theorem verdict_eq_of_perm {cs' : List Nat} {verdict' : Verdict} {r'' : Run} (h : net.NodeFiltered cs r verdict r')
    (h' : net.NodeFiltered cs' r verdict' r'') (hperm : cs'.Perm cs) : verdict' = verdict := by
  have hiff : verdict' = .consistent ↔ verdict = .consistent := by
    rw [h'.verdict_iff, h.verdict_iff]
    simp only [passes_perm hperm, hperm.mem_iff]
  cases verdict <;> cases verdict' <;> simp_all

/-- Without a conflict nothing but the domains has changed, and they are filtered. -/
theorem vars_eq (h : net.NodeFiltered cs r verdict r') (hverdict : verdict = .consistent) :
    r'.vars = restrict r.vars (net.Passes r.vars cs) :=
  eq_restrict h.prunes.frame h.prunes.value? (h.filtered hverdict)

/-- Without a conflict every constraint of the list is node consistent. -/
theorem nodeConsistent (h : net.NodeFiltered cs r verdict r') (hverdict : verdict = .consistent) :
    ∀ c ∈ cs, net.NodeConsistent r'.vars c := by
  intro c hc x hopen v hv
  rw [h.filtered hverdict] at hv
  rw [unassigned_congr h.prunes.value?] at hopen
  exact (admits_congr h.prunes).mpr (of_decide_eq_true (List.mem_filter.mp hv).2 c hc hopen)

/-- After a conflict some variable without a value has no value left. -/
theorem dead (h : net.NodeFiltered cs r verdict r') (hnet : net.Linked) (hframe : frame r.vars = frame net.vars)
    (hverdict : verdict = .conflict) : Dead r'.vars := by
  obtain ⟨c, -, x, hopen, hnil, -⟩ := h.emptied hverdict
  obtain ⟨hx, hfree⟩ := hnet.of_mem_unassigned hframe (hopen ▸ List.mem_singleton_self x)
  exact ⟨x, h.prunes.length.symm ▸ hx, (h.prunes.value? x).trans hfree, hnil⟩

end NodeFiltered

/-- Constraints that fail on no value of their open variable do not make node consistency fail. -/
theorem exists_nodeFiltered (hnet : net.Linked) (hframe : frame r.vars = frame net.vars)
    (hcs : ∀ c ∈ cs, (net.unassigned r.vars c).length = 1)
    (htotal : ∀ c ∈ cs, ∀ x, net.unassigned r.vars c = [x] → ∀ v ∈ domain r.vars x,
      ∃ b, (net.constraintAt c).holds (assign r.vars x v) = .ok b) :
    ∃ verdict r', (net.nodeConsistency cs).run r = (.ok verdict, r') ∧ net.NodeFiltered cs r verdict r' := by
  have hensures := nodeConsistency_ensures hnet cs r hframe fun c hc => Nat.le_of_eq (hcs c hc)
  rcases hrun : (net.nodeConsistency cs).run r with ⟨e | verdict, r'⟩
  · obtain ⟨-, c, hc, x, hopen, v, hv, -, hcause⟩ := hensures.of_run_error hrun
    obtain ⟨b, hb⟩ := htotal c hc x hopen v hv
    rw [hb] at hcause
    cases hcause
  · exact ⟨verdict, r', rfl, hensures.of_run_ok hrun⟩

/-- Node consistency for constraints with one open variable each, none of which fails on a value of that variable, is
filtering: it finds no conflict exactly if for every open variable some value of the domain makes all constraints on it
true, and then those values are left, in their order, the other domains and the values held are what they were, and
nothing of that depends on the order of the constraints. -/
theorem nodeConsistency_filters (hnet : net.Linked) (hframe : frame r.vars = frame net.vars)
    (hcs : ∀ c ∈ cs, (net.unassigned r.vars c).length = 1)
    (htotal : ∀ c ∈ cs, ∀ x, net.unassigned r.vars c = [x] → ∀ v ∈ domain r.vars x,
      ∃ b, (net.constraintAt c).holds (assign r.vars x v) = .ok b) :
    ∃ verdict,
      (verdict = .consistent ↔ ∀ c ∈ cs, ∀ x, net.unassigned r.vars c = [x] →
        (domain r.vars x).filter (net.Passes r.vars cs x ·) ≠ []) ∧
      ∀ cs' : List Nat, cs'.Perm cs → ∃ r', (net.nodeConsistency cs').run r = (.ok verdict, r') ∧
        (∀ x, value? r'.vars x = value? r.vars x) ∧
        (verdict = .consistent → r'.vars = restrict r.vars (net.Passes r.vars cs) ∧
          ∀ x, (∀ c ∈ cs, net.unassigned r.vars c ≠ [x]) → domain r'.vars x = domain r.vars x) := by
  obtain ⟨verdict, r', -, h⟩ := exists_nodeFiltered hnet hframe hcs htotal
  refine ⟨verdict, h.verdict_iff, fun cs' hperm => ?_⟩
  obtain ⟨verdict', r'', hrun, h'⟩ := exists_nodeFiltered hnet hframe (fun c hc => hcs c (hperm.mem_iff.mp hc))
    fun c hc => htotal c (hperm.mem_iff.mp hc)
  have hverdict' := h.verdict_eq_of_perm h' hperm
  refine ⟨r'', hverdict' ▸ hrun, h'.prunes.value?, fun hverdict => ?_⟩
  have hvars : r''.vars = restrict r.vars (net.Passes r.vars cs) := by
    rw [h'.vars_eq (hverdict'.trans hverdict), restrict_passes_perm hperm]
  refine ⟨hvars, fun x hx => ?_⟩
  rw [hvars, domain_restrict]
  exact List.filter_eq_self.mpr fun v _ => decide_eq_true fun c hc hopen => absurd hopen (hx c hc)

/-- The first summand is to be more than one, and less than five together with the second. -/
def capped : Network where
  vars := [⟨"A", [.int 1, .int 2, .int 3], none, [0, 1]⟩, ⟨"B", [.int 1, .int 2], none, [1]⟩]
  constraints := [⟨"A > 1", .binary .gt (.slot 0 "A") (.literal (.int 1)), [0]⟩,
    ⟨"A + B < 5", .binary .lt (.binary .add (.slot 0 "A") (.slot 1 "B")) (.literal (.int 5)), [0, 1]⟩]

theorem linked_capped : capped.Linked := by
  have hlink : link [⟨"A", [.int 1, .int 2, .int 3], none, []⟩, ⟨"B", [.int 1, .int 2], none, []⟩]
      [⟨"A > 1", .binary .gt (.ident "A") (.literal (.int 1)), []⟩,
        ⟨"A + B < 5", .binary .lt (.binary .add (.ident "A") (.ident "B")) (.literal (.int 5)), []⟩]
      = .ok capped := by cbv
  exact linked_of_link hlink

/-- The state in which the second summand holds two. -/
def cappedBesideTwo : Run where
  vars := assign capped.vars 1 (.int 2)

/-- The one value between the two bounds is left, whichever bound is looked at first. -/
theorem nodeConsistency_filters_capped :
    ∃ r₁ r₂, (capped.nodeConsistency [0, 1]).run cappedBesideTwo = (.ok .consistent, r₁) ∧
      (capped.nodeConsistency [1, 0]).run cappedBesideTwo = (.ok .consistent, r₂) ∧
      r₁.vars.map (·.domain) = [[.int 2], [.int 1, .int 2]] ∧ r₂.vars = r₁.vars := by
  have hopen : ∀ c ∈ [0, 1], capped.unassigned cappedBesideTwo.vars c = [0] := by decide
  have htotal : ∀ c ∈ [0, 1], ∀ x, capped.unassigned cappedBesideTwo.vars c = [x] →
      ∀ v ∈ domain cappedBesideTwo.vars x,
        ∃ b, (capped.constraintAt c).holds (assign cappedBesideTwo.vars x v) = .ok b := by
    intro c hc x hx
    obtain rfl : 0 = x := by simpa [hopen c hc] using hx
    simp only [List.mem_cons, List.not_mem_nil, or_false] at hc
    rcases hc with rfl | rfl <;> exact List.forall_mem_cons.mpr ⟨⟨_, rfl⟩, List.forall_mem_cons.mpr
      ⟨⟨_, rfl⟩, List.forall_mem_cons.mpr ⟨⟨_, rfl⟩, by simp⟩⟩⟩
  have hpasses : (domain cappedBesideTwo.vars 0).filter (capped.Passes cappedBesideTwo.vars [0, 1] 0 ·) = [.int 2] := by
    decide
  have hcs : ∀ c ∈ [0, 1], (capped.unassigned cappedBesideTwo.vars c).length = 1 := fun c hc => by rw [hopen c hc]; rfl
  obtain ⟨verdict, hverdict, hfilters⟩ := nodeConsistency_filters linked_capped rfl hcs htotal
  obtain rfl : verdict = .consistent := hverdict.mpr fun c hc x hx => by
    obtain rfl : 0 = x := by simpa [hopen c hc] using hx
    simp [hpasses]
  obtain ⟨r₁, hrun₁, -, hvars₁⟩ := hfilters [0, 1] (.refl _)
  obtain ⟨r₂, hrun₂, -, hvars₂⟩ := hfilters [1, 0] (.swap 0 1 [])
  refine ⟨r₁, r₂, hrun₁, hrun₂, ?_, (hvars₂ rfl).1.trans (hvars₁ rfl).1.symm⟩
  rw [(hvars₁ rfl).1]
  decide

end FiniteDomain.Network
