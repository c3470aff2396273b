import Mathlib
import FiniteDomain.Proofs.Network.Sessions
import FiniteDomain.Proofs.Network.Solutions

/-!
# Solutions in lexicographic order

Where the order of variables is fixed, a solve streams the solutions as the lexicographic enumeration of the product of
the domains meets them, whatever is propagated: all of them if it is not given up, and else the first ones
(`solutions_in_order`). Propagation leaves holes in the domains but never changes the order of what is left; so the
order says of any two solutions which comes first, and a list of solutions in order is determined by its members.
-/

namespace FiniteDomain

open Variables

/-! ## Lexicographic enumeration -/

section Choices

variable {α : Type}

/-- Every choice of one item from each list, those with an earlier item of an earlier list first. -/
def choices : List (List α) → List (List α)
  | [] => [[]]
  | as :: lists => as.flatMap fun a => (choices lists).map (a :: ·)

theorem mem_choices_iff {lists : List (List α)} {vs : List α} :
    vs ∈ choices lists ↔ List.Forall₂ (· ∈ ·) vs lists := by
  induction lists generalizing vs with
  | nil => simp [choices]
  | cons as lists ih =>
      simp only [choices, List.mem_flatMap, List.mem_map, ih, List.forall₂_cons_right_iff]
      constructor
      · rintro ⟨a, ha, ws, hws, rfl⟩
        exact ⟨a, ws, ha, hws, rfl⟩
      · rintro ⟨a, ws, ha, hws, rfl⟩
        exact ⟨a, ha, ws, hws, rfl⟩

/-- At the first place where two choices differ, `vs` has the item that is earlier in the list. -/
def Earlier (lists : List (List α)) (vs ws : List α) : Prop :=
  ∃ k as v w, lists[k]? = some as ∧ vs[k]? = some v ∧ ws[k]? = some w ∧ vs.take k = ws.take k ∧
    [v, w].Sublist as

/-- The choices are enumerated in order. -/
theorem pairwise_choices (lists : List (List α)) : (choices lists).Pairwise (Earlier lists) := by
  induction lists with
  | nil => exact List.pairwise_singleton ..
  | cons as lists ih =>
      rw [choices, List.pairwise_flatMap]
      constructor
      · intro a _
        refine List.pairwise_map.mpr (ih.imp ?_)
        rintro vs ws ⟨k, bs, v, w, hbs, hv, hw, htake, hsub⟩
        exact ⟨k + 1, bs, v, w, hbs, hv, hw, by rw [List.take_succ_cons, List.take_succ_cons, htake], hsub⟩
      · refine List.pairwise_iff_forall_sublist.mpr fun {a b} hab vs hvs ws hws => ?_
        obtain ⟨vs, -, rfl⟩ := List.mem_map.mp hvs
        obtain ⟨ws, -, rfl⟩ := List.mem_map.mp hws
        exact ⟨0, as, a, b, rfl, rfl, rfl, rfl, hab⟩

/-- Of items in order, those that come before all others are the first ones. -/
theorem prefix_of_pairwise {R : α → α → Prop} (hR : ∀ a b, R a b → ¬ R b a) {as bs : List α}
    (has : as.Pairwise R) (hbs : bs.Pairwise R) (hsub : as ⊆ bs)
    (hfirst : ∀ a ∈ as, ∀ b ∈ bs, b ∉ as → R a b) : as <+: bs := by
  classical
  have hirrefl : ∀ a b, R a b → a ≠ b := by
    rintro a _ hab rfl
    exact hR a a hab hab
  have hrest : (as ++ bs.filter (· ∉ as)).Pairwise R := by
    refine List.pairwise_append.mpr ⟨has, hbs.sublist List.filter_sublist, fun a ha b hb => ?_⟩
    obtain ⟨hb, hnot⟩ := List.mem_filter.mp hb
    exact hfirst a ha b hb (of_decide_eq_true hnot)
  have hperm : (as ++ bs.filter (· ∉ as)).Perm bs := by
    refine (List.perm_ext_iff_of_nodup (hrest.imp (hirrefl _ _)) (hbs.imp (hirrefl _ _))).mpr fun b => ?_
    simp only [List.mem_append, List.mem_filter, decide_eq_true_eq]
    by_cases hb : b ∈ as
    · simp [hb, hsub hb]
    · simp [hb]
  have heq := hperm.eq_of_pairwise (fun a b _ _ hab hba => absurd hba (hR a b hab)) hrest hbs
  exact heq ▸ List.prefix_append ..

end Choices

/-! ## Assignments in order -/

/-- The complete assignment that gives the variables of the order the values of a list. -/
def valuation (order : List Nat) (vs : List Value) (x : Nat) : Value :=
  vs.getD (order.idxOf x) (.bool true)

instance (c : Constraint) (a : Nat → Value) : Decidable (c.SatisfiedBy a) :=
  inferInstanceAs (Decidable (c.expr.eval (c.scope.map a) = .ok (.bool true)))

instance (net : Network) (a : Nat → Value) : Decidable (net.SatisfiedBy a) :=
  inferInstanceAs (Decidable (∀ c ∈ net.constraints, c.SatisfiedBy a))

/-- Of two solutions, only one comes before the other. -/
theorem Solution.Before.asymm {order : List Nat} {vars : List Variable} {s t : Solution}
    (hnodup : ∀ x, (domain vars x).Nodup) (h : s.Before order vars t) : ¬ t.Before order vars s := by
  obtain ⟨k, x, v, w, hx, hsame, hsv, htw, hvw⟩ := h
  rintro ⟨k', x', w', v', hx', hsame', htw', hsv', hwv⟩
  have hne : ∀ {y : Nat} {a b : Value}, [a, b].Sublist (domain vars y) → a ≠ b := fun h =>
    List.pairwise_pair.mp ((hnodup _).sublist h)
  -- At the place that comes first the two differ, while before the other place they are the same.
  rcases Nat.lt_trichotomy k k' with hlt | rfl | hlt
  · have hmem : x ∈ order.take k' := List.mem_of_getElem? (i := k) (by rw [List.getElem?_take_of_lt hlt, hx])
    have heq := hsame' x hmem
    rw [hsv, htw, Option.some.injEq] at heq
    exact hne hvw heq.symm
  · rw [hx, Option.some.injEq] at hx'
    subst hx'
    rw [hsv, Option.some.injEq] at hsv'
    rw [htw, Option.some.injEq] at htw'
    subst hsv' htw'
    exact not_pair_sublist_swap (hnodup x) hvw hwv
  · have hmem : x' ∈ order.take k := List.mem_of_getElem? (i := k') (by rw [List.getElem?_take_of_lt hlt, hx'])
    have heq := hsame x' hmem
    rw [hsv', htw', Option.some.injEq] at heq
    exact hne hwv heq.symm

namespace Network

variable {net start : Network} {order : List Nat}

/-- The solutions among the choices of values from the domains of the variables of the order, in lexicographic
order. -/
def enumeration (net : Network) (order : List Nat) : List Solution :=
  (((choices (order.map (domain net.vars))).map (valuation order)).filter (net.SatisfiedBy ·)).map
    (Solution.ofAssignment net.vars)

/-- A solve streams the enumeration: all of it if it is not given up, and else a beginning. -/
structure Enumerates (net : Network) (order : List Nat) : Prop where
  collected_eq : ∀ stats, net.solve.result = .ok stats → net.solve.collected = net.enumeration order
  solutions_prefix : ∀ e, net.solve.result = .error e → net.solve.solutions <+: net.enumeration order

/-- A variable of the order has the value that stands at its place in the list. -/
theorem getElem?_eq_valuation {vs : List Value} {k x : Nat} (hnodup : order.Nodup)
    (hlength : vs.length = order.length) (hx : order[k]? = some x) : vs[k]? = some (valuation order vs x) := by
  obtain ⟨hk, rfl⟩ := List.getElem?_eq_some_iff.mp hx
  have hk' : k < vs.length := hlength ▸ hk
  simp [valuation, hnodup.idxOf_getElem k hk, List.getElem?_eq_getElem hk']

/-- Assignments that agree on the variables are one solution. -/
theorem ofAssignment_eq_of_agree {vars : List Variable} {a b : Nat → Value}
    (h : ∀ x, x < vars.length → a x = b x) : Solution.ofAssignment vars a = .ofAssignment vars b :=
  congrArg Solution.mk (List.mapIdx_eq_mapIdx_iff.mpr fun x hx => congrArg (Prod.mk _) (h x hx))

/-- Assignments that agree on the variables satisfy the same networks. -/
theorem SatisfiedBy.congr (hnet : net.Linked) {a b : Nat → Value} (h : net.SatisfiedBy a)
    (hab : ∀ x, x < net.vars.length → a x = b x) : net.SatisfiedBy b := by
  intro c hc
  have hscope : c.scope.map b = c.scope.map a :=
    List.map_congr_left fun x hx => (hab x (hnet.lt_length c hc x hx)).symm
  rw [Constraint.SatisfiedBy, hscope]
  exact h c hc

/-- The solutions of the enumeration are those of the network. -/
theorem mem_enumeration_iff (hnet : net.Linked) (hperm : order.Perm (List.range net.vars.length))
    {s : Solution} : s ∈ net.enumeration order ↔ net.Extension net.vars s := by
  have hnodup : order.Nodup := hperm.nodup_iff.mpr List.nodup_range
  have hplace : ∀ x, x < net.vars.length → order[order.idxOf x]? = some x := fun x hx =>
    List.getElem?_idxOf (hperm.mem_iff.mpr (List.mem_range.mpr hx))
  simp only [enumeration, List.mem_map, List.mem_filter, mem_choices_iff, decide_eq_true_eq]
  constructor
  · rintro ⟨_, ⟨⟨vs, hvs, rfl⟩, hsat⟩, rfl⟩
    refine ⟨valuation order vs, (extends_iff hnet).mpr fun x hx => ?_, hsat, rfl⟩
    rw [List.forall₂_map_right_iff] at hvs
    obtain ⟨hlength, hmem⟩ := List.forall₂_iff_get.mp hvs
    obtain ⟨hk, hv⟩ := List.getElem?_eq_some_iff.mp (getElem?_eq_valuation hnodup hlength (hplace x hx))
    obtain ⟨hk', hx'⟩ := List.getElem?_eq_some_iff.mp (hplace x hx)
    have hdomain := hmem _ hk hk'
    simpa only [List.get_eq_getElem, hv, hx'] using hdomain
  · rintro ⟨a, hext, hsat, rfl⟩
    have hagree : ∀ x, x < net.vars.length → a x = valuation order (order.map a) x := by
      intro x hx
      have hlength : (order.map a).length = order.length := List.length_map ..
      have hvalue := getElem?_eq_valuation hnodup hlength (hplace x hx)
      rwa [List.getElem?_map, hplace x hx, Option.map_some, Option.some.injEq] at hvalue
    refine ⟨valuation order (order.map a), ⟨⟨order.map a, ?_, rfl⟩, hsat.congr hnet hagree⟩, ?_⟩
    · rw [List.forall₂_map_left_iff, List.forall₂_map_right_iff, List.forall₂_same]
      exact fun x hx => (extends_iff hnet).mp hext x (List.mem_range.mp (hperm.subset hx))
    · exact (ofAssignment_eq_of_agree hagree).symm

/-- An earlier choice of values is an earlier assignment. -/
theorem before_of_earlier (hperm : order.Perm (List.range net.vars.length)) {vs ws : List Value}
    (hvs : vs.length = order.length) (hws : ws.length = order.length)
    (h : Earlier (order.map (domain net.vars)) vs ws) :
    (Solution.ofAssignment net.vars (valuation order vs)).Before order net.vars
      (.ofAssignment net.vars (valuation order ws)) := by
  have hnodup : order.Nodup := hperm.nodup_iff.mpr List.nodup_range
  have hvalue : ∀ {us : List Value} {j y : Nat}, us.length = order.length → order[j]? = some y →
      (Solution.ofAssignment net.vars (valuation order us)).value? y = us[j]? := by
    intro us j y hlength hy
    have hlt := List.mem_range.mp (hperm.subset (List.mem_of_getElem? hy))
    rw [Solution.value?_ofAssignment hlt, getElem?_eq_valuation hnodup hlength hy]
  obtain ⟨k, as, v, w, has, hv, hw, htake, hsub⟩ := h
  rw [List.getElem?_map] at has
  obtain ⟨x, hx, rfl⟩ := Option.map_eq_some_iff.mp has
  refine ⟨k, x, v, w, hx, ?_, (hvalue hvs hx).trans hv, (hvalue hws hx).trans hw, hsub⟩
  intro y hy
  obtain ⟨j, hj, hget⟩ := List.mem_take_iff_getElem.mp hy
  have hjk : j < k := Nat.lt_of_lt_of_le hj (Nat.min_le_left ..)
  have hplace : order[j]? = some y := List.getElem?_eq_some_iff.mpr ⟨_, hget⟩
  have hsame := congrArg (·[j]?) htake
  rw [hvalue hvs hplace, hvalue hws hplace]
  simpa only [List.getElem?_take_of_lt hjk] using hsame

/-- The enumeration is in order. -/
theorem pairwise_enumeration (hperm : order.Perm (List.range net.vars.length)) :
    (net.enumeration order).Pairwise fun s t => s.Before order net.vars t := by
  have hlength : ∀ vs ∈ choices (order.map (domain net.vars)), vs.length = order.length := by
    intro vs hvs
    rw [(mem_choices_iff.mp hvs).length_eq, List.length_map]
  refine List.pairwise_map.mpr (List.Pairwise.sublist List.filter_sublist (List.pairwise_map.mpr ?_))
  exact (pairwise_choices _).imp_of_mem fun hvs hws h =>
    before_of_earlier hperm (hlength _ hvs) (hlength _ hws) h

theorem nodup_enumeration (hnet : net.Linked) (hperm : order.Perm (List.range net.vars.length)) :
    (net.enumeration order).Nodup := by
  refine (pairwise_enumeration hperm).imp ?_
  rintro s _ h rfl
  exact h.asymm hnet.nodup_domain h

/-! ## Solves in order -/

/-- A solve that assigns the variables in a fixed order streams the enumeration in that order. -/
theorem enumerates_of_order? (hnet : net.Linked) (horder : net.order? = some order) : net.Enumerates order := by
  have hperm := hnet.order?_perm horder
  obtain ⟨hpairwise, hsound, hfirst⟩ := solutions_solve hnet
  have hprefix : net.solve.solutions <+: net.enumeration order := by
    refine prefix_of_pairwise (fun s t => Solution.Before.asymm hnet.nodup_domain)
      (hpairwise.imp fun h => h order horder) (pairwise_enumeration hperm) ?_ ?_
    · exact fun s hs => (mem_enumeration_iff hnet hperm).mpr (hsound s hs)
    · exact fun s hs t ht hnot => hfirst s hs t ((mem_enumeration_iff hnet hperm).mp ht) hnot order horder
  refine ⟨fun stats hstats => ?_, fun _ _ => hprefix⟩
  have hcollected : net.solve.collected = net.solve.solutions := by
    rw [Outcome.collected, hstats]
  have hall : net.enumeration order ⊆ net.solve.solutions := by
    intro s hs
    rw [← hcollected]
    exact ((collected_solve hnet hstats).1 s).mpr ((mem_enumeration_iff hnet hperm).mp hs)
  rw [hcollected]
  exact hprefix.eq_of_length_le (List.subperm_of_subset (nodup_enumeration hnet hperm) hall).length_le

/-- At any time in a session and whatever is propagated, a solve in declaration order streams the lexicographic
enumeration in that order, and a solve by degree that in the order of all variables by degree. -/
theorem enumerates_of_reaches (hbuilt : start.Built) (h : start.Reaches net) :
    (net.config.heuristic = .static → net.Enumerates (List.range net.vars.length)) ∧
      (net.config.heuristic = .mostConstrained →
        (Heuristic.degreeOrder net.variableLinks net.scopes).Perm (List.range net.vars.length) ∧
          net.Enumerates (Heuristic.degreeOrder net.variableLinks net.scopes)) := by
  have hnet := h.linked hbuilt
  constructor
  · intro hstatic
    refine enumerates_of_order? hnet ?_
    rw [order?, hstatic, Heuristic.fixedOrder?, length_variableLinks]
  · intro hdegree
    refine ⟨hnet.degreeOrder_perm, enumerates_of_order? hnet ?_⟩
    rw [order?, hdegree, Heuristic.fixedOrder?]

/-- The variable declared last is the first one of the constraint, whose predicate is walked by levels. -/
def summing : Network where
  vars := [⟨"A", [.int 0, .int 1], none, [0]⟩, ⟨"B", [.int 0, .int 1], none, [0]⟩,
    ⟨"C", [.int 0, .int 1], none, [0]⟩]
  constraints := [⟨"A + B == C",
    .binary .eq (.binary .add (.slot 1 "A") (.slot 2 "B")) (.slot 0 "C"), [2, 0, 1]⟩]

theorem built_summing : summing.Built := by
  have hlink : link [⟨"A", [.int 0, .int 1], none, []⟩, ⟨"B", [.int 0, .int 1], none, []⟩,
        ⟨"C", [.int 0, .int 1], none, []⟩]
      [⟨"A + B == C", .binary .eq (.binary .add (.ident "A") (.ident "B")) (.ident "C"), []⟩]
        = .ok summing := by cbv
  exact .link hlink

/-- By degree `summing` is solved with its last variable first; `dividing` is given up after its one solution. -/
theorem enumerates_of_reaches_summing :
    (summing.configure eager).solve.result = .ok ⟨3, 9, 20⟩ ∧
      Heuristic.degreeOrder summing.variableLinks summing.scopes = [2, 0, 1] ∧
      (summing.configure eager).solve.collected = (summing.configure eager).enumeration [2, 0, 1] ∧
      (dividing.configure {}).solve.result = .error ⟨"1 / A == 1", .divisionByZero⟩ ∧
      (dividing.configure {}).solve.solutions <+: (dividing.configure {}).enumeration [0] := by
  have hdegree : Heuristic.degreeOrder summing.variableLinks summing.scopes = [2, 0, 1] := by cbv
  have hsummed : (summing.configure eager).solve.result = .ok ⟨3, 9, 20⟩ := by cbv
  have hdivided : (dividing.configure {}).solve.result = .error ⟨"1 / A == 1", .divisionByZero⟩ := by cbv
  obtain ⟨-, henumerates⟩ := (enumerates_of_reaches built_summing (.configure eager .refl)).2 rfl
  have hfirst := (enumerates_of_reaches built_dividing (.configure {} .refl)).1 rfl
  exact ⟨hsummed, hdegree, hdegree ▸ henumerates.collected_eq _ hsummed, hdivided,
    hfirst.solutions_prefix _ hdivided⟩

end Network

end FiniteDomain
