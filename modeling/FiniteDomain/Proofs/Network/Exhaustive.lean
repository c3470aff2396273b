import FiniteDomain.Proofs.Network.Searching

/-!
# The search is exhaustive

From a state that a search can be in, the search finds exactly the solutions that extend the values held, each
once and in order, and leaves the variables, the trail and the number of assigned variables as it found them
(`search_finds`). If a constraint cannot be evaluated it leaves them so too, the failure is genuine, and what was found
are the solutions that come first. The proof follows the recursion: what is found below a variable is what is found
below each of its values put together, a branch that is cut off by a false constraint or by a conflict has no
solutions, and pruning loses none.
-/

namespace FiniteDomain

open Variables

/-- The variables, the trail and the number of assigned variables are those of before. -/
structure Restores (r r' : Run) : Prop where
  vars : r'.vars = r.vars
  trail : r'.trail = r.trail
  assigned : r'.assigned = r.assigned

theorem Restores.trans {r r' r'' : Run} (h : Restores r r') (h' : Restores r' r'') : Restores r r'' :=
  ⟨h'.vars.trans h.vars, h'.trail.trans h.trail, h'.assigned.trans h.assigned⟩

theorem Quiet.restores {r r' : Run} (h : Quiet r r') : Restores r r' :=
  ⟨h.vars, h.trail, h.assigned⟩

namespace Network

variable {net : Network} {r : Run} {next : Solver Unit} {x assigned : Nat} {v : Value}

/-- The computation from `r` ends in states with the property `back`, in which the solutions with the property `p` are
collected since `start`; after a failure, which is genuine, those of them that come first. -/
def Streams (net : Network) (p : Solution → Prop) (back : Run → Prop) (start : Run) (act : Solver Unit)
    (r : Run) : Prop :=
  act.Ensures r (fun _ r' => back r' ∧ Collects net p start r')
    (fun e r' => back r' ∧ net.Genuine e ∧ Begins net p start r')

namespace Streams

variable {p q : Solution → Prop} {back back' : Run → Prop} {start start' : Run} {act : Solver Unit}

/-- A step that finds nothing may come before, and the properties may have other names. -/
theorem mono (h : net.Streams p back start act r) (hstart : FindsNothing start' start)
    (hpq : ∀ s, p s ↔ q s) (hback : ∀ r', back r' → back' r') : net.Streams q back' start' act r := by
  refine Solver.Ensures.mono h ?_ ?_
  · exact fun _ r' h' => ⟨hback r' h'.1, (h'.2.congr hpq).between hstart ⟨rfl, rfl⟩⟩
  · exact fun _ r' h' => ⟨hback r' h'.1, h'.2.1, (h'.2.2.congr hpq).between hstart ⟨rfl, rfl⟩⟩

/-- A change at the end that finds nothing may follow. -/
theorem ensuring {after : Run → Run} (h : net.Streams p back start act r)
    (hafter : ∀ r', FindsNothing r' (after r')) (hback : ∀ r', back r' → back' (after r')) :
    net.Streams p back' start (act.ensuring after) r := by
  refine Solver.Ensures.ensuring (Solver.Ensures.mono h ?_ ?_)
  · exact fun _ r' h' => ⟨hback r' h'.1, h'.2.between ⟨rfl, rfl⟩ (hafter r')⟩
  · exact fun _ r' h' => ⟨hback r' h'.1, h'.2.1, h'.2.2.between ⟨rfl, rfl⟩ (hafter r')⟩

/-- Solutions of one kind are followed by those of another kind, all of which come later. -/
theorem followed (h : net.Streams p back start act r) (hnext : ∀ r', back r' → net.Streams q back r' next r')
    (hpq : ∀ s, p s → ¬ q s) (hbefore : ∀ s t, p s → q t → net.Precedes s t) :
    net.Streams (fun s => p s ∨ q s) back start (do act; next) r := by
  refine Solver.Ensures.bind (Solver.Ensures.mono h ?_ ?_)
  · rintro _ r₁ ⟨hback, hcollects⟩
    refine Solver.Ensures.mono (hnext r₁ hback) ?_ ?_
    · exact fun _ r₂ h' => ⟨h'.1, hcollects.join h'.2 hpq hbefore⟩
    · exact fun _ r₂ h' => ⟨h'.1, h'.2.1, .right hcollects h'.2.2 hpq hbefore⟩
  · exact fun _ r₁ h' => ⟨h'.1, h'.2.1, h'.2.2.left hbefore⟩

end Streams

/-- The computation finds the solutions that extend the values held and restores the state, also after a failure. -/
def Finds (net : Network) (act : Solver Unit) (r : Run) : Prop :=
  net.Streams (net.Extension r.vars) (Restores r) r act r

/-! ## Checks and pruning -/

/-- Checking constraints without open variables is quiet. All hold if it says so, and one of them is false if it says
not. -/
theorem allHold_ensures (cs : List Nat) (r : Run) (hwithin : net.Within r.vars)
    (hcs : ∀ c ∈ cs, net.unassigned r.vars c = []) :
    (net.allHold cs).Ensures r
      (fun b r' => Quiet r r' ∧ match b with
        | true => ∀ c ∈ cs, (net.constraintAt c).holds r.vars = .ok true
        | false => ∃ c ∈ cs, (net.constraintAt c).holds r.vars = .ok false)
      (fun e r' => Quiet r r' ∧ net.Genuine e) := by
  induction cs generalizing r with
  | nil => exact ⟨Quiet.refl r, by simp⟩
  | cons c cs ih =>
      rw [allHold]
      refine Solver.Ensures.bind ((check_ensures net c r).mono ?_ fun _ _ h =>
        ⟨h.1, h.2.genuine hwithin (hcs c List.mem_cons_self)⟩)
      rintro b r₁ ⟨hquiet, hholds⟩
      cases b with
      | false => exact ⟨hquiet, c, List.mem_cons_self, hholds⟩
      | true =>
          have hcs₁ : ∀ d ∈ cs, net.unassigned r₁.vars d = [] := by
            rw [hquiet.vars]
            exact fun d hd => hcs d (List.mem_cons_of_mem c hd)
          refine (ih r₁ (hquiet.vars.symm ▸ hwithin) hcs₁).mono ?_ fun _ _ h => ⟨hquiet.trans h.1, h.2⟩
          rintro b r₂ ⟨hquiet', hall⟩
          rw [hquiet.vars] at hall
          refine ⟨hquiet.trans hquiet', ?_⟩
          cases b with
          | true =>
              intro d hd
              rcases List.mem_cons.mp hd with rfl | hd
              · exact hholds
              · exact hall d hd
          | false =>
              obtain ⟨d, hd, hfalse⟩ := hall
              exact ⟨d, List.mem_cons_of_mem c hd, hfalse⟩

/-- Nothing is found where a constraint is false under the values held. -/
theorem not_extension_of_holds {vars : List Variable} {c : Nat}
    (h : (net.constraintAt c).holds vars = .ok false) (s : Solution) : ¬ net.Extension vars s := by
  rintro ⟨a, ha, hs, -⟩
  exact Constraint.not_satisfiedBy_of_holds ha h (hs.constraintAt c)

/-- Pruning changes nothing about the solutions that extend the values held. -/
theorem extension_iff_of_prunes {r' : Run} (h : Prunes net r r') (s : Solution) :
    net.Extension r'.vars s ↔ net.Extension r.vars s := by
  constructor
  · rintro ⟨a, ha, hs, heq⟩
    exact ⟨a, h.extends_of_extends ha, hs, heq⟩
  · rintro ⟨a, ha, hs, heq⟩
    exact ⟨a, h.keeps a hs ha, hs, heq⟩

/-- What is found after pruning that is undone at the end is what there was to find before it. -/
theorem finds_undoing {act : Solver Verdict} (hact : net.Propagates { r with trail := {} } act)
    (hnext : ∀ r', Prunes net { r with trail := {} } r' → net.Finds next r') :
    net.Finds (Solver.undoing do
      match ← act with
      | .consistent => next
      | .conflict => pure ()) r := by
  refine Solver.ensures_look_bind (Solver.ensures_update_bind ?_)
  -- The removals are undone in a state that restores the pruned one.
  refine Streams.ensuring (Solver.Ensures.bind (Solver.Ensures.mono hact ?_ ?_)) (fun _ => ⟨rfl, rfl⟩)
    fun r₂ (hback : ∃ r₁, Prunes net { r with trail := {} } r₁ ∧ Restores r₁ r₂) => ?_
  · rintro verdict r₁ ⟨hprunes, hdead⟩
    cases verdict with
    | consistent =>
        refine (hnext r₁ hprunes).mono ⟨hprunes.solutions, hprunes.found⟩ ?_ ?_
        · exact extension_iff_of_prunes (r := { r with trail := {} }) hprunes
        · exact fun r₂ hrest => ⟨r₁, hprunes, hrest⟩
    | conflict =>
        -- Some variable has no value left, and pruning lost no solution: there was none.
        refine ⟨⟨r₁, hprunes, rfl, rfl, rfl⟩, .none ⟨hprunes.solutions, hprunes.found⟩ ?_⟩
        rintro s ⟨a, ha, hs, -⟩
        exact (hdead rfl).not_extends (hprunes.keeps a hs ha)
  · rintro e r₁ ⟨hprunes, hgenuine⟩
    exact ⟨⟨r₁, hprunes, rfl, rfl, rfl⟩, hgenuine, .none ⟨hprunes.solutions, hprunes.found⟩⟩
  · obtain ⟨r₁, hprunes, hrest⟩ := hback
    refine ⟨?_, rfl, hrest.assigned.trans hprunes.assigned⟩
    show r₂.trail.revert r₂.vars = r.vars
    rw [hrest.trail, hrest.vars]
    exact hprunes.revert_eq rfl

/-! ## Values, variables and the search below them -/

/-- A value is tried: what is found extends the values held with it, and the state is restored but for the value
of the variable. -/
theorem tryValue_ensures (hnet : net.Linked) (hsearch : net.Searching (free r.vars x) assigned)
    (hassigned : r.assigned = assigned + 1) (hx : x < r.vars.length)
    (horder : ∀ order, net.order? = some order → order[assigned]? = some x) (hv : v ∈ domain r.vars x)
    (hnext : ∀ r', net.Searching r'.vars (assigned + 1) → r'.assigned = assigned + 1 →
      net.Finds next r') :
    net.Streams (net.Extension (assign r.vars x v)) (fun r' => Restores (r.free x) (r'.free x)) r
      (net.tryValue next x v) r := by
  -- The value tried before is overwritten: the variable is not freed in between.
  have hvars : assign (free r.vars x) x v = assign r.vars x v := assign_free
  have hback : ∀ r', Restores (r.assign x v) r' → Restores (r.free x) (r'.free x) := by
    intro r' h
    refine ⟨?_, h.trail, h.assigned⟩
    show free r'.vars x = free r.vars x
    rw [h.vars]
    exact free_assign
  have hv' : v ∈ domain net.vars x := hsearch.within.mem_domain (by rwa [domain_free])
  have hwithin : net.Within (assign r.vars x v) := hvars ▸ hsearch.within.assign hv'
  have hcomplete : ∀ c ∈ net.constraintsWith (assign r.vars x v) x 0,
      net.unassigned (assign r.vars x v) c = [] :=
    fun c hc => List.length_eq_zero_iff.mp (length_unassigned_of_mem_constraintsWith hc)
  unfold tryValue
  refine Solver.ensures_update_bind (Solver.ensures_look_bind (Solver.Ensures.bind ?_))
  refine (allHold_ensures _ _ hwithin hcomplete).mono ?_ ?_
  · rintro b r₁ ⟨hquiet, hall⟩
    have hrest₁ : Restores (r.assign x v) r₁ := ⟨hquiet.vars, hquiet.trail, hquiet.assigned⟩
    have hvars₁ : r₁.vars = assign r.vars x v := hquiet.vars
    cases b with
    | true =>
        have hsearch₁ : net.Searching r₁.vars (assigned + 1) := by
          rw [hvars₁, ← hvars]
          refine hsearch.assign hnet (by simpa using hx) value?_free_self horder hv' ?_
          rw [hvars]
          exact hall
        have hpropagates := propagate_propagates hnet x { r₁ with trail := {} } hsearch₁.within rfl
        refine (finds_undoing hpropagates ?_).mono ⟨hquiet.solutions, hquiet.found⟩ ?_ ?_
        · intro r₂ hprunes
          have hsearch₂ : net.Searching r₂.vars (assigned + 1) :=
            Searching.of_prunes (r := { r₁ with trail := {} }) hsearch₁ hprunes
          refine hnext r₂ hsearch₂ ?_
          rw [hprunes.assigned]
          exact hquiet.assigned.trans hassigned
        · intro s
          rw [hvars₁]
        · exact fun r₂ hrest => hback r₂ (hrest₁.trans hrest)
    | false =>
        obtain ⟨c, -, hfalse⟩ := hall
        exact ⟨hback _ ⟨hrest₁.vars, hrest₁.trail, hrest₁.assigned⟩,
          .none ⟨hquiet.solutions, hquiet.found⟩ (not_extension_of_holds hfalse)⟩
  · rintro e r₁ ⟨hquiet, hgenuine⟩
    exact ⟨hback r₁ ⟨hquiet.vars, hquiet.trail, hquiet.assigned⟩, hgenuine,
      .none ⟨hquiet.solutions, hquiet.found⟩⟩

/-- Values are tried one after the other: what is found is what is found for each of them. -/
theorem tryValues_ensures (hnet : net.Linked) {vs : List Value} (hvs : vs.Sublist (domain r.vars x))
    (hsearch : net.Searching (free r.vars x) assigned)
    (hassigned : r.assigned = assigned + 1) (hx : x < r.vars.length)
    (horder : ∀ order, net.order? = some order → order[assigned]? = some x)
    (hnext : ∀ r', net.Searching r'.vars (assigned + 1) → r'.assigned = assigned + 1 →
      net.Finds next r') :
    net.Streams (fun s => ∃ v ∈ vs, net.Extension (assign r.vars x v) s)
      (fun r' => Restores (r.free x) (r'.free x)) r (net.tryValues next x vs) r := by
  induction vs generalizing r with
  | nil => exact ⟨⟨rfl, rfl, rfl⟩, .none ⟨rfl, rfl⟩ (by simp)⟩
  | cons v vs ih =>
      have hnodup : (v :: vs).Nodup := by
        refine ((hnet.nodup_domain x).sublist (hsearch.within.sublist x)).sublist ?_
        rwa [domain_free]
      have hdomain : domain (free r.vars x) x = domain r.vars x := domain_free
      have hx' : x < (free r.vars x).length := by simpa using hx
      have hassign : ∀ {w s}, net.Extension (assign r.vars x w) s →
          net.Extension (assign (free r.vars x) x w) s := fun h => by rwa [assign_free]
      -- Solutions with different values of `x` differ, and those with the earlier value come first.
      have hdiffer : ∀ s, net.Extension (assign r.vars x v) s →
          ¬ ∃ w ∈ vs, net.Extension (assign r.vars x w) s := by
        rintro s hs ⟨w, hw, hs'⟩
        obtain rfl := hsearch.eq_of_extension hx' (hassign hs) (hassign hs')
        exact (List.nodup_cons.mp hnodup).1 hw
      have hbefore : ∀ s t, net.Extension (assign r.vars x v) s →
          (∃ w ∈ vs, net.Extension (assign r.vars x w) t) → net.Precedes s t := by
        rintro s t hs ⟨w, hw, ht⟩
        have hpair : [v, w].Sublist (domain (free r.vars x) x) :=
          hdomain ▸ ((List.singleton_sublist.mpr hw).cons_cons v).trans hvs
        exact hsearch.precedes hnet hx' value?_free_self horder hpair (hassign hs) (hassign ht)
      have hcons : ∀ s, (net.Extension (assign r.vars x v) s ∨ ∃ w ∈ vs, net.Extension (assign r.vars x w) s) ↔
          ∃ w ∈ v :: vs, net.Extension (assign r.vars x w) s := by
        simp only [List.mem_cons, exists_eq_or_imp, implies_true]
      have hv : v ∈ domain r.vars x := hvs.subset List.mem_cons_self
      rw [tryValues]
      refine ((tryValue_ensures hnet hsearch hassigned hx horder hv hnext).followed ?_ hdiffer hbefore).mono
        ⟨rfl, rfl⟩ hcons fun _ h => h
      intro r₁ hrest
      have hfree : free r₁.vars x = free r.vars x := hrest.vars
      have hlength : r₁.vars.length = r.vars.length := by
        simpa using congrArg List.length hfree
      have hsame : ∀ w, assign r₁.vars x w = assign r.vars x w := by
        intro w
        rw [← assign_free, hfree, assign_free]
      have hvs₁ : vs.Sublist (domain r₁.vars x) := by
        rw [← domain_free (x := x), hfree, domain_free]
        exact (List.sublist_cons_self v vs).trans hvs
      have hrec := ih hvs₁ (hfree ▸ hsearch) (hrest.assigned.trans hassigned) (hlength ▸ hx)
      simp only [hsame] at hrec
      exact hrec.mono ⟨rfl, rfl⟩ (fun _ => Iff.rfl) fun _ => hrest.trans

/-- Branching on a variable finds everything: each extension gives it a value of its domain. -/
theorem branch_finds (hnet : net.Linked) (hsearch : net.Searching r.vars r.assigned)
    (hx : x < r.vars.length) (hfree : value? r.vars x = none)
    (horder : ∀ order, net.order? = some order → order[r.assigned]? = some x)
    (hnext : ∀ r', net.Searching r'.vars (r.assigned + 1) → r'.assigned = r.assigned + 1 →
      net.Finds next r') :
    net.Finds (net.branch next x) r := by
  have hself : free r.vars x = r.vars := free_eq_self hfree
  have hsearch' : net.Searching (free r.vars x) r.assigned := by rwa [hself]
  -- What extends the variables gives `x` one of the values that are tried.
  have hvalues : ∀ s, (∃ v ∈ domain r.vars x, net.Extension (assign r.vars x v) s) ↔
      net.Extension r.vars s := by
    intro s
    constructor
    · rintro ⟨v, hv, a, ha, hs, heq⟩
      exact ⟨a, ha.of_assign hfree hv, hs, heq⟩
    · rintro ⟨a, ha, hs, heq⟩
      exact ⟨a x, ha.mem_domain x hx hfree, a, ha.assign rfl, hs, heq⟩
  unfold branch
  refine Solver.ensures_update_bind (Solver.ensures_look_bind (Solver.ensures_update_bind ?_))
  refine Streams.ensuring (Streams.mono (tryValues_ensures hnet (List.Sublist.refl _) hsearch' rfl hx horder hnext)
    ⟨rfl, rfl⟩ hvalues fun _ h => h) (fun _ => ⟨rfl, rfl⟩) fun r' hrest => ?_
  refine ⟨hrest.vars.trans hself, hrest.trail, ?_⟩
  show r'.assigned - 1 = r.assigned
  rw [show r'.assigned = r.assigned + 1 from hrest.assigned]
  rfl

/-- When every variable holds a value, recording their values finds everything. -/
theorem recordSolution_finds (hnet : net.Linked) (hsearch : net.Searching r.vars r.assigned)
    (hall : r.assigned = r.vars.length) : net.Finds recordSolution r := by
  unfold Finds Streams
  refine Solver.ensures_update
    ⟨⟨rfl, rfl, rfl⟩, [solutionOf r.vars], rfl, rfl, by simp, List.pairwise_singleton .., fun s => ?_⟩
  rw [hsearch.extension_iff hnet hall, List.mem_singleton]

/-- A change of the state that shows neither in the variables nor in the solutions finds nothing. -/
theorem finds_update {act : Solver Unit} {f : Run → Run} (h : net.Finds act (f r))
    (hrest : Restores r (f r)) (hnothing : FindsNothing r (f r)) :
    net.Finds (do Solver.update f; act) r := by
  refine Solver.ensures_update_bind (h.mono hnothing ?_ fun _ => hrest.trans)
  intro s
  rw [hrest.vars]

/-- The search finds every solution that extends the values held. -/
theorem search_finds (hnet : net.Linked) (remaining : Nat) (r : Run)
    (hsearch : net.Searching r.vars r.assigned)
    (hremaining : r.assigned + remaining = r.vars.length) :
    net.Finds (net.search remaining) r := by
  induction remaining generalizing r with
  | zero =>
      exact finds_update (recordSolution_finds hnet hsearch hremaining) ⟨rfl, rfl, rfl⟩ ⟨rfl, rfl⟩
  | succ remaining ih =>
      refine finds_update (Solver.ensures_look_bind ?_) ⟨rfl, rfl, rfl⟩ ⟨rfl, rfl⟩
      have hlt : r.assigned < r.vars.length := by omega
      obtain ⟨x, hselect, hx, hfree, horder⟩ :=
        Heuristic.exists_select hnet hsearch.length hsearch.filled hsearch.count_eq hlt
      dsimp only
      rw [hselect]
      refine branch_finds hnet hsearch hx hfree horder ?_
      intro r' hsearch' hassigned'
      refine ih r' (hassigned' ▸ hsearch') ?_
      have hlength : r'.vars.length = r.vars.length :=
        hsearch'.length.trans hsearch.length.symm
      rw [hassigned', hlength, ← hremaining]
      exact Nat.add_right_comm ..

/-! ## Whole solves -/

/-- Before anything is assigned the search can begin, if the constraints without variables are true. -/
theorem searching_start (hnet : net.Linked)
    (hconstant : ∀ c ∈ net.constraintsOfArity 0, (net.constraintAt c).holds net.vars = .ok true) :
    net.Searching net.vars 0 := by
  refine ⟨hnet.within, ?_, ?_, ?_⟩
  · intro c hsome
    -- Nothing is assigned yet, so that a constraint without open variables has no variables.
    have hscope : (net.constraintAt c).scope = [] := by
      refine List.eq_nil_iff_forall_not_mem.mpr fun y hy => ?_
      have := hsome y hy
      simp [hnet.value?_eq_none] at this
    rcases Nat.lt_or_ge c net.constraints.length with hc | hc
    · refine hconstant c (List.mem_filter.mpr ⟨List.mem_range.mpr hc, ?_⟩)
      simp [Constraint.arity, hscope]
    · -- A number that no constraint has stands for one that is true.
      have hdefault : net.constraintAt c = .ofExpr (.literal (.bool true)) := by
        rw [constraintAt, List.getElem?_eq_none hc]
        rfl
      rw [hdefault]
      rfl
  · refine (List.countP_eq_zero.mpr fun w hw => ?_).symm
    obtain ⟨y, hy, rfl⟩ := List.getElem_of_mem hw
    have hnone := hnet.value?_eq_none y
    simp only [value?, List.getElem?_eq_getElem hy, Option.bind_some] at hnone
    simp [hnone]
  · intro order _ y _
    simp [hnet.value?_eq_none]

/-- A whole solve finds every solution. -/
theorem explore_finds (hnet : net.Linked) (hvars : r.vars = net.vars) (hassigned : r.assigned = 0) :
    net.Finds net.explore r := by
  have hwithin : net.Within r.vars := hvars ▸ hnet.within
  have hconstant : ∀ c ∈ net.constraintsOfArity 0, net.unassigned r.vars c = [] :=
    fun c hc => unassigned_eq_nil_of_mem_constraintsOfArity r.vars hc
  unfold explore
  refine Solver.Ensures.bind ((allHold_ensures _ r hwithin hconstant).mono ?_ ?_)
  · rintro b r₁ ⟨hquiet, hall⟩
    cases b with
    | true =>
        have hvars₁ : r₁.vars = net.vars := hquiet.vars.trans hvars
        have hsearch : net.Searching net.vars 0 := searching_start hnet (hvars ▸ hall)
        have hpropagates := preprocess_propagates hnet { r₁ with trail := {} }
          (show net.Within r₁.vars from hvars₁ ▸ hnet.within)
        have hfinds : net.Streams (net.Extension r.vars) (Restores r) r (Solver.undoing do
            match ← net.preprocess with
            | .consistent =>
                Solver.emit .searchBegun
                net.search net.vars.length
            | .conflict => pure ()) r₁ := by
          refine (finds_undoing hpropagates ?_).mono ⟨hquiet.solutions, hquiet.found⟩ ?_ ?_
          · intro r₂ hprunes
            have hassigned₂ : r₂.assigned = 0 :=
              hprunes.assigned.trans (hquiet.assigned.trans hassigned)
            have hsearch₂ : net.Searching r₂.vars r₂.assigned := by
              rw [hassigned₂]
              exact Searching.of_prunes (r := { r₁ with trail := {} }) (hvars₁ ▸ hsearch) hprunes
            refine finds_update (search_finds hnet _ _ hsearch₂ ?_) ⟨rfl, rfl, rfl⟩ ⟨rfl, rfl⟩
            rw [hassigned₂, Nat.zero_add]
            exact hsearch₂.length.symm
          · intro s
            rw [hquiet.vars]
          · exact fun r₂ hrest => hquiet.restores.trans hrest
        refine Solver.Ensures.bind (Solver.Ensures.mono hfinds ?_ fun _ _ h => h)
        rintro _ r₂ ⟨hrest, hcollects⟩
        exact ⟨hrest.trans ⟨rfl, rfl, rfl⟩, hcollects.between ⟨rfl, rfl⟩ ⟨rfl, rfl⟩⟩
    | false =>
        obtain ⟨c, -, hfalse⟩ := hall
        exact ⟨⟨hquiet.vars, hquiet.trail, hquiet.assigned⟩,
          .none ⟨hquiet.solutions, hquiet.found⟩ (not_extension_of_holds hfalse)⟩
  · rintro e r₁ ⟨hquiet, hgenuine⟩
    exact ⟨hquiet.restores, hgenuine, .none hquiet.findsNothing⟩

/-- What a solve comes to, by the run that it makes. -/
theorem solve_of_run {result : Except SolveError Unit} {r : Run}
    (hrun : net.rewound.explore.run { vars := net.vars } = (result, r)) :
    net.solve = {
      result := result.map fun _ => r.stats
      network := { net with vars := r.vars, assigned := r.assigned, stats := r.stats }
      solutions := r.solutions.reverse
      events := r.events.reverse } := by
  have hrun' : net.rewound.explore.run { vars := net.rewound.vars } = (result, r) := hrun
  simp only [solve, hrun']
  rfl

/-- The run that a solve makes finds every solution. -/
theorem explore_finds_rewound (hnet : net.Linked) :
    net.Finds net.rewound.explore { vars := net.vars } :=
  explore_finds (hnet.rewound 0 {}) rfl rfl

/-- After a solve, failed or not, only the counters of the network differ. -/
theorem network_solve (hnet : net.Linked) :
    net.solve.network = { net with assigned := 0, stats := net.solve.network.stats } := by
  have hfinds := explore_finds_rewound hnet
  rcases hrun : net.rewound.explore.run { vars := net.vars } with ⟨result, r⟩
  have hrest : Restores { vars := net.vars } r := by
    cases result with
    | error e => exact (hfinds.of_run_error hrun).1
    | ok u => exact (hfinds.of_run_ok hrun).1
  rw [solve_of_run hrun, hrest.vars, hrest.assigned]

/-- A solve is given up only for a genuine failure. -/
theorem genuine_of_result (hnet : net.Linked) {e : SolveError} (h : net.solve.result = .error e) :
    net.Genuine e := by
  have hfinds := explore_finds_rewound hnet
  rcases hrun : net.rewound.explore.run { vars := net.vars } with ⟨result, r⟩
  rw [solve_of_run hrun] at h
  cases result with
  | error e' =>
      cases h
      exact (hfinds.of_run_error hrun).2.1
  | ok u => cases h

/-- What a solve streams, given up or not, are solutions in order, those that come first. -/
theorem solutions_solve (hnet : net.Linked) :
    net.solve.solutions.Pairwise net.Precedes ∧
      (∀ s ∈ net.solve.solutions, net.Extension net.vars s) ∧
      ∀ s ∈ net.solve.solutions, ∀ t, net.Extension net.vars t → t ∉ net.solve.solutions → net.Precedes s t := by
  have hfinds := explore_finds_rewound hnet
  rcases hrun : net.rewound.explore.run { vars := net.vars } with ⟨result, r⟩
  have hbegins : Begins net (net.Extension net.vars) { vars := net.vars } r := by
    cases result with
    | error e => exact (hfinds.of_run_error hrun).2.2
    | ok u => exact ⟨_, (hfinds.of_run_ok hrun).2, fun _ h => h, fun _ _ _ ht hnot => absurd ht hnot⟩
  obtain ⟨q, ⟨new, hsolutions, -, -, hpairwise, hmem⟩, hsound, hfirst⟩ := hbegins
  have hstreamed : net.solve.solutions = new.reverse := by
    rw [solve_of_run hrun]
    show r.solutions.reverse = new.reverse
    rw [hsolutions, List.append_nil]
  simp only [hstreamed, List.pairwise_reverse, List.mem_reverse, hmem]
  exact ⟨hpairwise, hsound, fun s hs t ht hnot => hfirst s t hs ht hnot⟩

/-- A solve that is not given up collects every solution once and counts them. -/
theorem collected_solve (hnet : net.Linked) {stats : Stats} (h : net.solve.result = .ok stats) :
    (∀ s, s ∈ net.solve.collected ↔ net.Extension net.vars s) ∧ net.solve.collected.Nodup ∧
      stats.solutions = net.solve.collected.length := by
  have hfinds := explore_finds_rewound hnet
  rcases hrun : net.rewound.explore.run { vars := net.vars } with ⟨result, r⟩
  rw [solve_of_run hrun] at h ⊢
  cases result with
  | error e => cases h
  | ok u =>
      obtain ⟨-, new, hsolutions, hfound, hnodup, -, hmem⟩ := hfinds.of_run_ok hrun
      rw [List.append_nil] at hsolutions
      cases h
      show (∀ s, s ∈ r.solutions.reverse ↔ _) ∧ r.solutions.reverse.Nodup ∧
        r.stats.solutions = r.solutions.reverse.length
      rw [hsolutions]
      refine ⟨fun s => List.mem_reverse.trans (hmem s), (List.reverse_perm new).nodup_iff.mpr hnodup, ?_⟩
      rw [hfound, List.length_reverse]
      exact Nat.zero_add _

end Network

end FiniteDomain
