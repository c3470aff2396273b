import Mathlib
import FiniteDomain.Proofs.Expr.ByName
import FiniteDomain.Proofs.Network.Wiring

/-!
# Linking keeps the meaning of constraints

A constraint says what its expression says of the names in it. Linking lists the variables that the expression
mentions and binds its names to positions in that list, whatever they were bound to before; evaluated with the values
of the listed variables, the bound expression has the value that the expression has by names (`eval_of_link`). What
carries this is that the walk which makes the list misses no name (`Expr.mem_names_iff`), so that the position of
every declared name is found in it.
-/

namespace FiniteDomain.Network

open Variables

/-- What names stand for when `a` gives the declared ones their values. -/
def declared (names : List String) (a : String → Value) (name : String) : Option Value :=
  if name ∈ names then some (a name) else none

/-- The name of the variable with a number, among names in the order of the declarations. -/
theorem name_eq_getD (vars : List Variable) (x : Nat) :
    name vars x = (vars.map (·.name)).getD x "" := by
  simp [name, List.getD_eq_getElem?_getD]

/-- The position of every name that an expression mentions is found among the variables that it mentions. -/
theorem locates_slotOf? {names : List String} {e : Expr} {s : String} (hs : e.Mentions s)
    (a : String → Value) :
    Expr.Locates (slotOf? names (mentioned names e))
      ((mentioned names e).map fun x => a (names.getD x "")) (declared names a) s := by
  unfold Expr.Locates declared
  by_cases hname : s ∈ names
  · rw [if_pos hname]
    obtain ⟨i, hi⟩ := exists_slotOf? hs hname
    obtain ⟨x, hnumber, hget⟩ := of_slotOf?_eq_some hi
    refine ⟨i, hi, ?_⟩
    simp [hnumber, List.getD_eq_getElem?_getD, hget]
  · rw [if_neg hname]
    simp only [slotOf?, List.idxOf?_eq_none_iff.mpr hname, Option.bind_none]

/-- A linked constraint says of the values of its variables what its expression says by names. -/
theorem eval_linkConstraint (names : List String) (c : Constraint) (a : String → Value) :
    (linkConstraint names c).expr.eval ((linkConstraint names c).scope.map fun x => a (names.getD x ""))
      = c.expr.evalNamed (declared names a) :=
  Expr.eval_bind c.expr fun _ hs => locates_slotOf? hs a

/-- Linking keeps the meaning of every constraint, and so what a constraint says depends on the variables that it is
linked to alone. -/
theorem eval_of_link {vars : List Variable} {constraints : List Constraint} {net : Network}
    (h : link vars constraints = .ok net) {k : Nat} {c : Constraint} (hc : constraints[k]? = some c) :
    ∃ linked, net.constraints[k]? = some linked ∧
      (∀ a : String → Value, linked.expr.eval (linked.scope.map fun x => a (name net.vars x))
        = c.expr.evalNamed (declared (vars.map (·.name)) a)) ∧
      ∀ a b : String → Value, (∀ x ∈ linked.scope, a (name net.vars x) = b (name net.vars x)) →
        c.expr.evalNamed (declared (vars.map (·.name)) a)
          = c.expr.evalNamed (declared (vars.map (·.name)) b) := by
  obtain ⟨-, -, hconstraints, -⟩ := eq_of_link h
  have hmeaning : ∀ a : String → Value,
      (linkConstraint (vars.map (·.name)) c).expr.eval
          ((linkConstraint (vars.map (·.name)) c).scope.map fun x => a (name net.vars x))
        = c.expr.evalNamed (declared (vars.map (·.name)) a) := by
    intro a
    simp only [name_eq_getD, names_of_link h]
    exact eval_linkConstraint _ c a
  refine ⟨linkConstraint (vars.map (·.name)) c, ?_, hmeaning, ?_⟩
  · rw [hconstraints, List.getElem?_map, hc]
    rfl
  · intro a b hab
    rw [← hmeaning a, ← hmeaning b, List.map_congr_left hab]

/-- A constraint whose names were bound to other positions before. -/
def rebound : Constraint :=
  ⟨"B < A and abs(B) == k",
    .binary .and (.binary .lt (.slot 3 "B") (.ident "A"))
      (.binary .eq (.call "abs" [.slot 0 "B"]) (.slot 1 "k")), [4, 2]⟩

/-- The constraint `rebound` among variables that have no `k`. -/
def relinked : Network where
  vars := [⟨"A", [.int 1, .int 2], none, [0]⟩, ⟨"B", [.int 1], none, [0]⟩]
  constraints := [⟨"B < A and abs(B) == k",
    .binary .and (.binary .lt (.slot 0 "B") (.slot 1 "A"))
      (.binary .eq (.call "abs" [.slot 0 "B"]) (.ident "k")), [1, 0]⟩]
  unresolved := ["k", "abs"]

/-- The name that stands for no variable is unknown where it is read, and is not read where the first comparison
decides. -/
theorem eval_of_link_relinked :
    link [⟨"A", [.int 1, .int 2], none, []⟩, ⟨"B", [.int 1], none, []⟩] [rebound] = .ok relinked ∧
      (∃ linked, relinked.constraints[0]? = some linked ∧
        ∀ a : String → Value, linked.expr.eval (linked.scope.map fun x => a (name relinked.vars x))
          = rebound.expr.evalNamed (declared ["A", "B"] a)) ∧
      rebound.expr.evalNamed (declared ["A", "B"] fun s => if s = "A" then .int 2 else .int 1)
        = .error (.unknownName "k") ∧
      rebound.expr.evalNamed (declared ["A", "B"] fun _ => .int 1) = .ok (.bool false) := by
  have hlink : link [⟨"A", [.int 1, .int 2], none, []⟩, ⟨"B", [.int 1], none, []⟩] [rebound]
      = .ok relinked := by cbv
  obtain ⟨linked, hlinked, hmeaning, -⟩ := eval_of_link hlink (k := 0) (c := rebound) rfl
  exact ⟨hlink, ⟨linked, hlinked, hmeaning⟩, rfl, rfl⟩

end FiniteDomain.Network
