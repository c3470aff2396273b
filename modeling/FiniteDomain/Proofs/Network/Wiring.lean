import Mathlib.Data.List.Nodup
import FiniteDomain.Proofs.Expr.Parts
import FiniteDomain.Proofs.Network.Degree

/-!
# Wiring

Linking makes two arenas point at each other: a constraint lists its variables, by position in which its names are
bound, and a variable lists its constraints. It succeeds exactly for distinct names and domains without repetitions, and
then the two kinds of lists say the same, which is what the names in the predicates say; slots are bound to the
variables of their names, and every name that is left over is reported once (`wired_of_link`).
-/

namespace FiniteDomain

namespace Network

variable {vars : List Variable} {constraints : List Constraint} {net : Network}

/-! ## Links and names -/

/-- A predicate lists a variable exactly if it mentions the name. -/
theorem mem_mentioned_iff {names : List String} (hnodup : names.Nodup) {x : Nat} {s : String}
    (hx : names[x]? = some s) {e : Expr} : x ∈ mentioned names e ↔ e.Mentions s := by
  have hfound : names.idxOf? s = some x := by
    obtain ⟨hlt, rfl⟩ := List.getElem?_eq_some_iff.mp hx
    exact List.idxOf?_eq_some_iff.mpr ⟨hlt, rfl, fun j hj heq =>
      absurd (hnodup.getElem_inj_iff.mp heq) (Nat.ne_of_lt hj)⟩
  rw [mentioned, List.mem_filterMap]
  constructor
  · rintro ⟨t, ht, hidx⟩
    obtain ⟨hlt, rfl, -⟩ := List.idxOf?_eq_some_iff.mp hidx
    rw [List.getElem?_eq_getElem hlt, Option.some.injEq] at hx
    rw [← hx]
    exact Expr.mem_names_iff.mp ht
  · exact fun hs => ⟨s, Expr.mem_names_iff.mpr hs, hfound⟩

/-- The numbers of the constraints on a variable ascend. -/
theorem pairwise_constraintsOn (constraints : List Constraint) (x : Nat) :
    (constraintsOn constraints x).Pairwise (· < ·) :=
  List.pairwise_lt_range.sublist List.filter_sublist

/-- The position of a slot is that of the variable with its name. -/
theorem of_slotOf?_eq_some {names : List String} {numbers : List Nat} {s : String} {i : Nat}
    (h : slotOf? names numbers s = some i) : ∃ x, numbers[i]? = some x ∧ names[x]? = some s := by
  obtain ⟨x, hx, hi⟩ := Option.bind_eq_some_iff.mp h
  obtain ⟨hilt, higet, -⟩ := List.idxOf?_eq_some_iff.mp hi
  obtain ⟨hxlt, hxget, -⟩ := List.idxOf?_eq_some_iff.mp hx
  exact ⟨x, List.getElem?_eq_some_iff.mpr ⟨hilt, higet⟩, List.getElem?_eq_some_iff.mpr ⟨hxlt, hxget⟩⟩

/-- A declared name that a predicate mentions has a position. -/
theorem exists_slotOf? {names : List String} {e : Expr} {s : String} (hs : e.Mentions s)
    (hname : s ∈ names) : ∃ i, slotOf? names (mentioned names e) s = some i := by
  obtain ⟨x, hx⟩ := Option.isSome_iff_exists.mp (List.isSome_idxOf?.mpr hname)
  have hmem : x ∈ mentioned names e := List.mem_filterMap.mpr ⟨s, Expr.mem_names_iff.mpr hs, hx⟩
  obtain ⟨i, hi⟩ := Option.isSome_iff_exists.mp (List.isSome_idxOf?.mpr hmem)
  exact ⟨i, by rw [slotOf?, hx, Option.bind_some, hi]⟩

/-! ## Names that are left over -/

theorem unresolvedNames_eq (names : List String) (constraints : List Constraint) :
    unresolvedNames names constraints
      = (constraints.flatMap (·.expr.names)).eraseDups.filter (! names.contains ·) := by
  rw [unresolvedNames, ← eraseDups_filter, List.filter_flatMap]

theorem mem_unresolvedNames_iff {names : List String} {s : String} :
    s ∈ unresolvedNames names constraints ↔ s ∉ names ∧ ∃ c ∈ constraints, c.expr.Mentions s := by
  rw [unresolvedNames_eq, List.mem_filter, List.mem_eraseDups, List.mem_flatMap]
  simp only [Expr.mem_names_iff, Bool.not_eq_true', List.contains_eq_mem, decide_eq_false_iff_not]
  exact And.comm

/-! ## The whole network -/

/-- Linking succeeds exactly for sound declarations. -/
theorem link_eq_ok_iff (vars : List Variable) (constraints : List Constraint) :
    (∃ net, link vars constraints = .ok net) ↔
      (vars.map (·.name)).Nodup ∧ ∀ w ∈ vars, w.domain.Nodup := by
  rw [← checkVariables_eq_ok_iff]
  constructor
  · rintro ⟨net, h⟩
    exact (eq_of_link h).1
  · exact fun h => exists_link_of_checkVariables h constraints

/-- A linked variable and a linked constraint list each other exactly if the name of the one stands in the other. -/
theorem links_of_link (h : link vars constraints = .ok net) {x k : Nat} {w : Variable}
    {c linked : Constraint} (hw : net.vars[x]? = some w) (hc : constraints[k]? = some c)
    (hlinked : net.constraints[k]? = some linked) :
    (x ∈ linked.scope ↔ k ∈ w.constraints) ∧ (k ∈ w.constraints ↔ c.expr.Mentions w.name) ∧
      (linked.expr.Mentions w.name ↔ c.expr.Mentions w.name) := by
  obtain ⟨hcheck, -, hconstraints, -⟩ := eq_of_link h
  have hnodup := ((checkVariables_eq_ok_iff vars).mp hcheck).1
  have hbound : linkConstraint (vars.map (·.name)) c = linked := by
    rw [hconstraints, List.getElem?_map, hc] at hlinked
    exact Option.some.inj hlinked
  have hmentions : x ∈ linked.scope ↔ c.expr.Mentions w.name := by
    rw [← hbound]
    refine mem_mentioned_iff hnodup ?_
    rw [← names_of_link h, List.getElem?_map, hw]
    rfl
  have hlists : k ∈ w.constraints ↔ x ∈ linked.scope := by
    rw [getElem?_vars_of_link h] at hw
    obtain ⟨v, -, rfl⟩ := Option.map_eq_some_iff.mp hw
    simp [mem_constraintsOn_iff, hlinked]
  refine ⟨hlists.symm, hlists.trans hmentions, ?_⟩
  rw [← hbound]
  exact Expr.mentions_bind_iff

/-- The network wires the constraints, which may have been linked before, to variables with the given names. -/
structure Wired (net : Network) (names : List String) (constraints : List Constraint) : Prop where
  names_eq : net.vars.map (·.name) = names
  length_eq : net.constraints.length = constraints.length
  /-- A constraint lists a variable, and is listed by it, exactly if the name stands in its predicate, before it is
  bound and after. -/
  links : ∀ (x : Nat) (w : Variable), net.vars[x]? = some w →
    ∀ (k : Nat) (c linked : Constraint), constraints[k]? = some c → net.constraints[k]? = some linked →
      (x ∈ linked.scope ↔ k ∈ w.constraints) ∧ (k ∈ w.constraints ↔ c.expr.Mentions w.name) ∧
        (linked.expr.Mentions w.name ↔ c.expr.Mentions w.name)
  /-- A constraint lists variables of the network, none twice. -/
  scope : ∀ linked ∈ net.constraints, linked.scope.Nodup ∧ ∀ x ∈ linked.scope, x < net.vars.length
  /-- A variable lists constraints of the network, none twice, by ascending number. -/
  ascending : ∀ w ∈ net.vars, w.constraints.Nodup ∧ w.constraints.Pairwise (· < ·) ∧
    ∀ k ∈ w.constraints, k < net.constraints.length
  /-- Every slot has the position of the variable with its name in the list of the constraint. -/
  slots : ∀ linked ∈ net.constraints, ∀ i s, Expr.Part (.slot i s) linked.expr →
    ∃ x w, linked.scope[i]? = some x ∧ net.vars[x]? = some w ∧ w.name = s
  /-- No name of a variable is left free. -/
  idents : ∀ linked ∈ net.constraints, ∀ s, Expr.Part (.ident s) linked.expr → s ∉ names
  nodup_unresolved : net.unresolved.Nodup
  mem_unresolved_iff : ∀ s, s ∈ net.unresolved ↔ s ∉ names ∧ ∃ c ∈ constraints, c.expr.Mentions s
  /-- The names that are left over stand in the order in which they are met. -/
  unresolved_order : net.unresolved.Pairwise fun s t =>
    (constraints.flatMap (·.expr.names)).idxOf s < (constraints.flatMap (·.expr.names)).idxOf t

/-- Linking succeeds exactly for variables with distinct names and domains without repetitions, and then it wires the
constraints to the variables. -/
theorem wired_of_link (vars : List Variable) (constraints : List Constraint) :
    ((∃ net, link vars constraints = .ok net) ↔
        (vars.map (·.name)).Nodup ∧ ∀ w ∈ vars, w.domain.Nodup) ∧
      ∀ net, link vars constraints = .ok net → net.Wired (vars.map (·.name)) constraints := by
  refine ⟨link_eq_ok_iff vars constraints, fun net h => ?_⟩
  have hnames := names_of_link h
  have hlinked := linked_of_link h
  obtain ⟨hcheck, -, hconstraints, -, -, -, hunresolved⟩ := eq_of_link h
  have hbound : ∀ linked ∈ net.constraints, ∃ c ∈ constraints,
      linkConstraint (vars.map (·.name)) c = linked := by
    rw [hconstraints]
    exact fun linked => List.mem_map.mp
  constructor
  · exact hnames
  · rw [hconstraints, List.length_map]
  · intro x w hw k c linked hc hlinked
    exact links_of_link h hw hc hlinked
  · exact fun linked hmem => ⟨hlinked.nodup_scope linked hmem, hlinked.lt_length linked hmem⟩
  · intro w hw
    obtain ⟨x, hget⟩ := List.mem_iff_getElem?.mp hw
    rw [getElem?_vars_of_link h] at hget
    obtain ⟨v, -, rfl⟩ := Option.map_eq_some_iff.mp hget
    have hpairwise := pairwise_constraintsOn net.constraints x
    refine ⟨hpairwise.imp Nat.ne_of_lt, hpairwise, fun k hk => ?_⟩
    obtain ⟨linked, hk, -⟩ := mem_constraintsOn_iff.mp hk
    exact (List.getElem?_eq_some_iff.mp hk).1
  · intro linked hmem i s hpart
    obtain ⟨c, -, rfl⟩ := hbound linked hmem
    obtain ⟨x, hscope, hname⟩ := of_slotOf?_eq_some (Expr.of_slot_part_bind hpart).1
    rw [← hnames, List.getElem?_map] at hname
    obtain ⟨w, hw, rfl⟩ := Option.map_eq_some_iff.mp hname
    exact ⟨x, w, hscope, hw, rfl⟩
  · intro linked hmem s hpart hs
    obtain ⟨c, -, rfl⟩ := hbound linked hmem
    obtain ⟨hnone, hmentions⟩ := Expr.of_ident_part_bind hpart
    obtain ⟨i, hi⟩ := exists_slotOf? hmentions hs
    rw [hnone] at hi
    cases hi
  · rw [hunresolved]
    exact nodup_eraseDups _
  · rw [hunresolved]
    exact fun s => mem_unresolvedNames_iff
  · rw [hunresolved, unresolvedNames_eq]
    exact (pairwise_idxOf_eraseDups _).sublist List.filter_sublist

/-- Constraints one of which was bound to other variables before and calls a function by the name of a variable. -/
def unwired : List Constraint :=
  [⟨"abs(A) == N and A < abs",
      .binary .and (.binary .eq (.call "abs" [.slot 3 "A"]) (.ident "N"))
        (.binary .lt (.slot 0 "A") (.ident "abs")), [2, 4]⟩,
    ⟨"N > len(B)", .binary .gt (.slot 1 "N") (.call "len" [.ident "B"]), [5]⟩]

/-- The constraints `unwired` among variables that have neither `N` nor `B`. -/
def shadowing : Network where
  vars := [⟨"A", [.int 1, .int 2], none, [0]⟩, ⟨"abs", [.int 0], none, [0]⟩]
  constraints := [⟨"abs(A) == N and A < abs",
      .binary .and (.binary .eq (.call "abs" [.slot 0 "A"]) (.ident "N"))
        (.binary .lt (.slot 0 "A") (.slot 1 "abs")), [0, 1]⟩,
    ⟨"N > len(B)", .binary .gt (.ident "N") (.call "len" [.ident "B"]), []⟩]
  unresolved := ["N", "len", "B"]

/-- The name of the function links the variable to the constraint, and the names left over are each reported once. -/
theorem wired_of_link_shadowing :
    link [⟨"A", [.int 1, .int 2], none, [7]⟩, ⟨"abs", [.int 0], none, []⟩] unwired = .ok shadowing ∧
      shadowing.Wired ["A", "abs"] unwired := by
  have hlink : link [⟨"A", [.int 1, .int 2], none, [7]⟩, ⟨"abs", [.int 0], none, []⟩] unwired
      = .ok shadowing := by cbv
  exact ⟨hlink, (wired_of_link _ unwired).2 shadowing hlink⟩

end Network

end FiniteDomain
