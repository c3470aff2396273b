import FiniteDomain.Proofs.Network.Degree

/-!
# Variable orders choose open variables

As long as a variable is open, every heuristic chooses an open one (`exists_select`). Declaration order and the order
by degree are fixed: whatever has happened to the domains, the variables are assigned in one order of all variables
(`order?`). That rests on the variables held being the first ones of it (`FilledInOrder`), which the search keeps up.
-/

namespace FiniteDomain

open Variables

variable {vars : List Variable} {order : List Nat} {x assigned : Nat}

/-! ## Counting the variables that hold a value -/

namespace Variables

/-- The number of variables that hold a value. -/
def heldCount (vars : List Variable) : Nat :=
  vars.countP (·.value.isSome)

/-- Giving a value to a variable without one makes one more variable hold a value. -/
theorem heldCount_assign {v : Value} (hx : x < vars.length) (hfree : value? vars x = none) :
    heldCount (assign vars x v) = heldCount vars + 1 := by
  unfold heldCount assign
  induction vars generalizing x with
  | nil => simp at hx
  | cons w ws ih =>
      cases x with
      | zero =>
          have hw : w.value = none := by simpa [value?] using hfree
          simp [hw]
      | succ x =>
          have hrec := ih (x := x) (by simpa using hx) (by simpa [value?] using hfree)
          rw [List.modify_succ_cons, List.countP_cons, List.countP_cons, hrec]
          omega

/-- Which variables are counted shows in the values held alone. -/
theorem heldCount_congr {vars' : List Variable} (hlength : vars'.length = vars.length)
    (h : ∀ x, value? vars' x = value? vars x) : heldCount vars' = heldCount vars := by
  have hvalues : vars'.map (·.value) = vars.map (·.value) := by
    refine List.ext_getElem (by simpa using hlength) ?_
    intro x hx' hx
    rw [List.length_map] at hx' hx
    simpa [value?, List.getElem?_eq_getElem hx', List.getElem?_eq_getElem hx] using h x
  have hcount := congrArg (List.countP Option.isSome) hvalues
  simpa [heldCount, List.countP_map, Function.comp_def] using hcount

/-- If all variables are counted, each holds a value. -/
theorem isSome_of_heldCount_eq (h : heldCount vars = vars.length) (hx : x < vars.length) :
    (value? vars x).isSome := by
  have hall := List.countP_eq_length.mp h
  simpa [value?, List.getElem?_eq_getElem hx] using hall _ (List.getElem_mem hx)

theorem heldCount_le_length (vars : List Variable) : heldCount vars ≤ vars.length :=
  List.countP_le_length

/-- If each variable holds a value, all are counted. -/
theorem heldCount_eq_length (h : ∀ x, x < vars.length → (value? vars x).isSome) :
    heldCount vars = vars.length := by
  refine List.countP_eq_length.mpr fun w hw => ?_
  obtain ⟨x, hx, rfl⟩ := List.getElem_of_mem hw
  simpa [value?, List.getElem?_eq_getElem hx] using h x hx

/-- If not all variables are counted, one holds no value. -/
theorem exists_free_of_heldCount_lt (h : heldCount vars < vars.length) :
    ∃ x, x < vars.length ∧ value? vars x = none := by
  have hall : ¬ ∀ w ∈ vars, w.value.isSome = true := fun hall =>
    absurd (List.countP_eq_length.mpr hall) (Nat.ne_of_lt h)
  simp only [Classical.not_forall, Bool.not_eq_true, Option.isSome_eq_false_iff,
    Option.isNone_iff_eq_none] at hall
  obtain ⟨w, hw, hnone⟩ := hall
  obtain ⟨x, hx, rfl⟩ := List.getElem_of_mem hw
  exact ⟨x, hx, by simp [value?, List.getElem?_eq_getElem hx, hnone]⟩

/-- The variables that hold a value are the first ones of the order. -/
def FilledInOrder (order : List Nat) (vars : List Variable) (assigned : Nat) : Prop :=
  ∀ x, x < vars.length → ((value? vars x).isSome ↔ x ∈ order.take assigned)

/-- Giving a value to the next variable keeps to the order. -/
theorem FilledInOrder.assign {v : Value} (h : FilledInOrder order vars assigned) (hx : x < vars.length)
    (hnext : order[assigned]? = some x) : FilledInOrder order (assign vars x v) (assigned + 1) := by
  intro y hy
  rw [length_assign] at hy
  rw [List.take_add_one, hnext, List.mem_append]
  by_cases hyx : y = x
  · subst hyx
    simp [value?_assign_self hx]
  · rw [value?_assign_of_ne hyx, h y hy]
    simp [hyx]

/-- The open variables are those behind the first ones of an order of all variables. -/
theorem FilledInOrder.free_iff (h : FilledInOrder order vars assigned)
    (hperm : order.Perm (List.range vars.length)) (hx : x < vars.length) :
    value? vars x = none ↔ x ∈ order.drop assigned := by
  have hmem : x ∈ order := hperm.mem_iff.mpr (List.mem_range.mpr hx)
  have hnodup : order.Nodup := hperm.nodup_iff.mpr List.nodup_range
  rw [← List.take_append_drop assigned order] at hmem hnodup
  obtain ⟨-, -, hdisjoint⟩ := List.nodup_append.mp hnodup
  have htake : value? vars x = none ↔ x ∉ order.take assigned := by
    rw [← h x hx]
    simp
  rw [htake]
  constructor
  · exact (List.mem_append.mp hmem).resolve_left
  · exact fun hdrop htake => hdisjoint x htake x hdrop rfl

end Variables

/-! ## Fixed orders -/

/-- The order of all variables in which a heuristic chooses, if it is fixed by the links. -/
def Heuristic.fixedOrder? (h : Heuristic) (links scopes : List (List Nat)) : Option (List Nat) :=
  match h with
  | static => some (List.range links.length)
  | fewestValues => none
  | mostConstrained => some (degreeOrder links scopes)

namespace Network

/-- The constraints on each variable. -/
def variableLinks (net : Network) : List (List Nat) :=
  net.vars.map (·.constraints)

/-- The variables of each constraint. -/
def scopes (net : Network) : List (List Nat) :=
  net.constraints.map (·.scope)

/-- The order in which the variables of the network are assigned, if it is fixed. -/
def order? (net : Network) : Option (List Nat) :=
  net.config.heuristic.fixedOrder? net.variableLinks net.scopes

variable {net : Network}

theorem length_variableLinks (net : Network) : net.variableLinks.length = net.vars.length :=
  List.length_map ..

/-- The constraints on a variable are as many as its occurrences in them. -/
theorem length_constraintsOn {constraints : List Constraint} (hnodup : ∀ c ∈ constraints, c.scope.Nodup)
    (x : Nat) : (constraintsOn constraints x).length = (constraints.map (·.scope)).flatten.count x := by
  induction constraints with
  | nil => rfl
  | cons c cs ih =>
      have ih := ih fun d hd => hnodup d (List.mem_cons_of_mem c hd)
      have htail : ((List.range cs.length).map (· + 1)).filter (fun i =>
          ((c :: cs)[i]?.map (·.scope.contains x)).getD false) = (constraintsOn cs x).map (· + 1) := by
        rw [List.filter_map]
        rfl
      rw [constraintsOn, List.length_cons, List.range_succ_eq_map, List.filter_cons, htail, List.map_cons,
        List.flatten_cons, List.count_append, (hnodup c List.mem_cons_self).count, ← ih]
      by_cases hx : x ∈ c.scope
      · simp [hx, Nat.add_comm]
      · simp [hx]

/-- The degree of a variable is the number of its occurrences in the constraints. -/
theorem Linked.degree_eq (hnet : net.Linked) (hx : x < net.vars.length) :
    Heuristic.degree net.variableLinks x = net.scopes.flatten.count x := by
  have hlinks : net.variableLinks.getD x [] = links net.vars x := by
    simp [variableLinks, links, List.getD_eq_getElem?_getD]
  rw [Heuristic.degree, hlinks, hnet.links_eq x hx]
  exact length_constraintsOn hnet.nodup_scope x

/-- The variables in constraints are those of the network that have a degree. -/
theorem Linked.mem_byDegree_iff (hnet : net.Linked) :
    x ∈ Heuristic.byDegree net.variableLinks net.scopes ↔
      x < net.vars.length ∧ Heuristic.degree net.variableLinks x ≠ 0 := by
  have hmem : x ∈ Heuristic.byDegree net.variableLinks net.scopes ↔ x ∈ net.scopes.flatten :=
    (Heuristic.byDegree_perm _ _).mem_iff.trans List.mem_eraseDups
  rw [hmem]
  constructor
  · intro hx
    obtain ⟨scope, hscope, hmem⟩ := List.mem_flatten.mp hx
    obtain ⟨c, hc, rfl⟩ := List.mem_map.mp hscope
    have hlt := hnet.lt_length c hc x hmem
    refine ⟨hlt, ?_⟩
    rw [hnet.degree_eq hlt]
    exact Nat.ne_of_gt (List.count_pos_iff.mpr hx)
  · rintro ⟨hlt, hdegree⟩
    rw [hnet.degree_eq hlt] at hdegree
    exact List.count_pos_iff.mp (Nat.pos_of_ne_zero hdegree)

/-- The order by degree lists every variable once. -/
theorem Linked.degreeOrder_perm (hnet : net.Linked) :
    (Heuristic.degreeOrder net.variableLinks net.scopes).Perm (List.range net.vars.length) := by
  refine (List.perm_ext_iff_of_nodup ?_ List.nodup_range).mpr fun y => ?_
  · refine List.nodup_append.mpr
      ⟨Heuristic.nodup_byDegree _ _, List.nodup_range.sublist List.filter_sublist, ?_⟩
    rintro y hy z hz rfl
    exact (hnet.mem_byDegree_iff.mp hy).2 (by simpa using (List.mem_filter.mp hz).2)
  · rw [Heuristic.degreeOrder, List.mem_append, hnet.mem_byDegree_iff, length_variableLinks]
    simp only [List.mem_filter, List.mem_range, decide_eq_true_eq]
    by_cases hy : Heuristic.degree net.variableLinks y = 0 <;> simp [hy]

/-- A fixed order lists every variable once. -/
theorem Linked.order?_perm (hnet : net.Linked) (h : net.order? = some order) :
    order.Perm (List.range net.vars.length) := by
  unfold order? Heuristic.fixedOrder? at h
  cases hheuristic : net.config.heuristic with
  | static =>
      simp only [hheuristic, Option.some.injEq] at h
      rw [← h, length_variableLinks]
  | fewestValues =>
      simp only [hheuristic] at h
      cases h
  | mostConstrained =>
      simp only [hheuristic, Option.some.injEq] at h
      exact h ▸ hnet.degreeOrder_perm

end Network

/-! ## The choice -/

namespace Heuristic

variable {net : Network}

theorem mem_unassignedNumbers_iff :
    x ∈ unassignedNumbers vars ↔ x < vars.length ∧ value? vars x = none := by
  simp [unassignedNumbers]

/-- The best candidate is a candidate. -/
theorem firstBest_mem {better : Nat → Nat → Bool} {xs : List Nat}
    (h : firstBest better xs = some x) : x ∈ xs := by
  cases xs with
  | nil => cases h
  | cons y ys =>
      rw [firstBest, Option.some.injEq] at h
      subst h
      induction ys generalizing y with
      | nil => simp
      | cons z zs ih =>
          -- The better of the first two takes their place.
          rw [List.foldl_cons]
          rcases List.mem_cons.mp (ih (if better z y then z else y)) with heq | hmem
          · rw [heq]
            split <;> simp
          · exact List.mem_cons_of_mem _ (List.mem_cons_of_mem _ hmem)

/-- The open variables of constraints, by their first occurrence. -/
theorem openOccurrences_eq (net : Network) (vars : List Variable) :
    openOccurrences net.constraints vars
      = net.scopes.flatten.filter fun x => (value? vars x).isNone := by
  rw [List.filter_flatten, Network.scopes, List.map_map]
  exact List.flatMap_def

/-- When every variable in constraints holds a value, the open variables follow in the order of their
declaration. -/
theorem unassignedNumbers_eq_drop (hnet : net.Linked) (hlength : vars.length = net.vars.length)
    (hfilled : FilledInOrder (degreeOrder net.variableLinks net.scopes) vars assigned)
    (hle : (byDegree net.variableLinks net.scopes).length ≤ assigned) :
    unassignedNumbers vars = (degreeOrder net.variableLinks net.scopes).drop assigned := by
  have hperm := hlength.symm ▸ hnet.degreeOrder_perm
  have hsub : ((degreeOrder net.variableLinks net.scopes).drop assigned).Sublist
      (List.range net.variableLinks.length) := by
    rw [degreeOrder, List.drop_append, List.drop_eq_nil_of_le hle, List.nil_append]
    exact (List.drop_sublist ..).trans List.filter_sublist
  have hsub' : (unassignedNumbers vars).Sublist (List.range vars.length) := List.filter_sublist
  have hsame : (unassignedNumbers vars).Perm
      ((degreeOrder net.variableLinks net.scopes).drop assigned) := by
    refine (List.perm_ext_iff_of_nodup (List.nodup_range.sublist hsub')
      (List.nodup_range.sublist hsub)).mpr fun x => ?_
    rw [mem_unassignedNumbers_iff]
    constructor
    · exact fun ⟨hlt, hnone⟩ => (hfilled.free_iff hperm hlt).mp hnone
    · intro hx
      have hlt := List.mem_range.mp (hperm.subset (List.mem_of_mem_drop hx))
      exact ⟨hlt, (hfilled.free_iff hperm hlt).mpr hx⟩
  -- Both list their variables by ascending number.
  exact hsame.eq_of_pairwise (fun _ _ _ _ h h' => absurd h (Nat.lt_asymm h'))
    (List.pairwise_lt_range.sublist hsub') (List.pairwise_lt_range.sublist hsub)

/-- The most constrained open variable is the next by degree. -/
theorem select_mostConstrained (hnet : net.Linked) (hlength : vars.length = net.vars.length)
    (hfilled : FilledInOrder (degreeOrder net.variableLinks net.scopes) vars assigned) :
    select .mostConstrained net.constraints vars assigned
      = (degreeOrder net.variableLinks net.scopes)[assigned]? := by
  have hperm := hlength.symm ▸ hnet.degreeOrder_perm
  have hbest : firstBest (fun x y => (openOccurrences net.constraints vars).count x
        > (openOccurrences net.constraints vars).count y) (openOccurrences net.constraints vars).eraseDups
      = (byDegree net.variableLinks net.scopes)[assigned]? := by
    rw [openOccurrences_eq, eraseDups_filter]
    refine firstBest_filter_constrained ?_ ?_
    · intro x hx
      obtain ⟨hlt, hdegree⟩ := hnet.mem_byDegree_iff.mp hx
      rw [Option.isNone_iff_eq_none, hfilled.free_iff hperm (hlength ▸ hlt), degreeOrder, List.drop_append,
        List.mem_append]
      refine or_iff_left fun hrest => hdegree ?_
      simpa using (List.mem_filter.mp (List.mem_of_mem_drop hrest)).2
    · -- An open variable is counted in every constraint on it.
      intro x hx
      obtain ⟨hmem, hnone⟩ := List.mem_filter.mp hx
      have hlt := (hnet.mem_byDegree_iff.mp ((byDegree_perm _ _).mem_iff.mpr hmem)).1
      rw [hnet.degree_eq hlt]
      exact List.count_filter hnone
  simp only [select, hbest]
  cases hk : (byDegree net.variableLinks net.scopes)[assigned]? with
  | some x =>
      have hlt := (List.getElem?_eq_some_iff.mp hk).1
      rw [degreeOrder, List.getElem?_append_left hlt, hk]
  | none =>
      have hle := List.getElem?_eq_none_iff.mp hk
      rw [unassignedNumbers_eq_drop hnet hlength hfilled hle, List.head?_drop]

/-- A heuristic with a fixed order chooses the next variable of it. -/
theorem select_eq_getElem? (hnet : net.Linked) (hlength : vars.length = net.vars.length)
    (horder : net.order? = some order) (hfilled : FilledInOrder order vars assigned)
    (hlt : assigned < vars.length) :
    net.config.heuristic.select net.constraints vars assigned = order[assigned]? := by
  unfold Network.order? fixedOrder? at horder
  cases hheuristic : net.config.heuristic with
  | static =>
      simp only [hheuristic, Option.some.injEq] at horder
      subst horder
      rw [select, if_neg (Nat.ne_of_lt hlt), List.getElem?_range]
      rwa [Network.length_variableLinks, ← hlength]
  | fewestValues =>
      simp only [hheuristic] at horder
      cases horder
  | mostConstrained =>
      simp only [hheuristic, Option.some.injEq] at horder
      subst horder
      exact select_mostConstrained hnet hlength hfilled

/-- As long as a variable is open an open one is chosen, and if the order is fixed it is the next. -/
theorem exists_select (hnet : net.Linked) (hlength : vars.length = net.vars.length)
    (hfilled : ∀ order, net.order? = some order → FilledInOrder order vars assigned)
    (hcount : assigned = heldCount vars) (hlt : assigned < vars.length) :
    ∃ x, net.config.heuristic.select net.constraints vars assigned = some x ∧ x < vars.length ∧
      value? vars x = none ∧ ∀ order, net.order? = some order → order[assigned]? = some x := by
  cases horder : net.order? with
  | some order =>
      have hperm := hlength.symm ▸ hnet.order?_perm horder
      have hnext : assigned < order.length := by
        rw [hperm.length_eq, List.length_range]
        exact hlt
      have hget : order[assigned]? = some order[assigned] := List.getElem?_eq_getElem hnext
      have hx : order[assigned] < vars.length := List.mem_range.mp (hperm.subset (List.getElem_mem hnext))
      refine ⟨order[assigned], ?_, hx, ?_, ?_⟩
      · rw [select_eq_getElem? hnet hlength horder (hfilled order horder) hlt, hget]
      · refine ((hfilled order horder).free_iff hperm hx).mpr (List.mem_of_mem_head? ?_)
        rw [List.head?_drop, hget]
        rfl
      · rintro _ ⟨⟩
        exact hget
  | none =>
      have hheuristic : net.config.heuristic = .fewestValues := by
        unfold Network.order? fixedOrder? at horder
        cases h : net.config.heuristic <;> simp_all
      obtain ⟨y, hy⟩ := exists_free_of_heldCount_lt (hcount ▸ hlt)
      cases hselect : net.config.heuristic.select net.constraints vars assigned with
      | none =>
          rw [hheuristic, select] at hselect
          have hmem := mem_unassignedNumbers_iff.mpr hy
          rw [eq_nil_of_firstBest hselect] at hmem
          cases hmem
      | some x =>
          rw [hheuristic, select] at hselect
          obtain ⟨hx, hfree⟩ := mem_unassignedNumbers_iff.mp (firstBest_mem hselect)
          exact ⟨x, rfl, hx, hfree, fun _ h => by cases h⟩

/-- When every variable holds a value none is chosen. -/
theorem select_eq_none (hnet : net.Linked) (hlength : vars.length = net.vars.length)
    (hsome : ∀ x, x < vars.length → (value? vars x).isSome) (h : Heuristic) :
    h.select net.constraints vars vars.length = none := by
  have hunassigned : unassignedNumbers vars = [] := by
    refine List.filter_eq_nil_iff.mpr fun x hx => ?_
    simp [Option.isSome_iff_ne_none.mp (hsome x (List.mem_range.mp hx))]
  cases h with
  | static => exact if_pos rfl
  | fewestValues => rw [select, hunassigned, firstBest]
  | mostConstrained =>
      have hoccurrences : openOccurrences net.constraints vars = [] := by
        rw [openOccurrences_eq]
        refine List.filter_eq_nil_iff.mpr fun x hx => ?_
        obtain ⟨scope, hscope, hmem⟩ := List.mem_flatten.mp hx
        obtain ⟨c, hc, rfl⟩ := List.mem_map.mp hscope
        simp [Option.isSome_iff_ne_none.mp (hsome x (hlength ▸ hnet.lt_length c hc x hmem))]
      simp only [select, hoccurrences, List.eraseDups_nil, firstBest, hunassigned, List.head?_nil]

/-- None is chosen exactly when every variable holds a value. -/
theorem select_eq_none_iff (hnet : net.Linked) (hlength : vars.length = net.vars.length)
    (hfilled : ∀ order, net.order? = some order → FilledInOrder order vars assigned)
    (hcount : assigned = heldCount vars) :
    net.config.heuristic.select net.constraints vars assigned = none ↔
      ∀ x, x < vars.length → (value? vars x).isSome := by
  constructor
  · intro hnone
    rcases Nat.lt_or_eq_of_le (heldCount_le_length vars) with hlt | heq
    · obtain ⟨x, hselect, -⟩ := exists_select hnet hlength hfilled hcount (hcount ▸ hlt)
      rw [hselect] at hnone
      cases hnone
    · exact fun x hx => isSome_of_heldCount_eq heq hx
  · intro hsome
    rw [hcount, heldCount_eq_length hsome]
    exact select_eq_none hnet hlength hsome _

/-- The variable that is chosen is an open one, and if the order is fixed it is the next. -/
theorem of_select_eq_some (hnet : net.Linked) (hlength : vars.length = net.vars.length)
    (hfilled : ∀ order, net.order? = some order → FilledInOrder order vars assigned)
    (hcount : assigned = heldCount vars)
    (hselect : net.config.heuristic.select net.constraints vars assigned = some x) :
    assigned < vars.length ∧ x < vars.length ∧ value? vars x = none ∧
      ∀ order, net.order? = some order → order[assigned]? = some x := by
  have hlt : assigned < vars.length := by
    refine Nat.lt_of_le_of_ne (hcount ▸ heldCount_le_length vars) fun heq => ?_
    have hnone := select_eq_none hnet hlength
      (fun y hy => isSome_of_heldCount_eq (hcount.symm.trans heq) hy) net.config.heuristic
    rw [← heq, hselect] at hnone
    cases hnone
  obtain ⟨y, hselect', hy, hfree, hnext⟩ := exists_select hnet hlength hfilled hcount hlt
  rw [hselect, Option.some.injEq] at hselect'
  subst hselect'
  exact ⟨hlt, hy, hfree, hnext⟩

end Heuristic

end FiniteDomain
