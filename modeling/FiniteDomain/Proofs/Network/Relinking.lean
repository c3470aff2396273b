import Mathlib
import FiniteDomain.Proofs.Expr.Rebinding
import FiniteDomain.Proofs.Network.Sessions

/-!
# Linking again

Variables and constraints may be taken from a network and linked anew, with others and to others. What a former network
left in them are values, links, scopes and positions; linking reads names, domains and predicates only, and finds
names and positions of a predicate afresh. So it makes of used variables and constraints what it makes of new ones
(`link_of_becomes`).
-/

namespace FiniteDomain

/-! ## What becomes of variables and constraints -/

/-- `w.Becomes w'`: the variable `w` was taken to networks any number of times, each time solved under any
configurations any number of times, and came out as `w'`. -/
inductive Variable.Becomes (w : Variable) : Variable → Prop
  | unused : w.Becomes w
  | used {w₁ w₂ : Variable} {vars : List Variable} {constraints : List Constraint} {net net' : Network}
      {x : Nat} : w.Becomes w₁ → vars[x]? = some w₁ → Network.link vars constraints = .ok net →
      net.Reaches net' → net'.vars[x]? = some w₂ → w.Becomes w₂

/-- `c.Becomes c'`: the constraint `c` was taken to networks any number of times, each time solved under any
configurations any number of times, and came out as `c'`. -/
inductive Constraint.Becomes (c : Constraint) : Constraint → Prop
  | unused : c.Becomes c
  | used {c₁ c₂ : Constraint} {vars : List Variable} {constraints : List Constraint} {net net' : Network}
      {k : Nat} : c.Becomes c₁ → constraints[k]? = some c₁ → Network.link vars constraints = .ok net →
      net.Reaches net' → net'.constraints[k]? = some c₂ → c.Becomes c₂

/-- The name and the domain of a variable: all that linking reads of it. -/
def Variable.declaration (w : Variable) : String × List Value :=
  (w.name, w.domain)

/-- The two constraints differ only in what former networks left in them. -/
structure Constraint.Alike (c c' : Constraint) : Prop where
  source : c'.source = c.source
  names : c'.expr.names = c.expr.names
  bind : ∀ resolve, c'.expr.bind resolve = c.expr.bind resolve

namespace Network

variable {net net' : Network} {vars vars' : List Variable} {constraints constraints' : List Constraint}

/-- A session changes none of what was linked. -/
theorem Reaches.eq_of_link (hlink : link vars constraints = .ok net) (h : net.Reaches net') :
    { net' with config := {}, stats := {} } = net := by
  have hbuilt : net.Built := .link hlink
  obtain ⟨-, -, -, hconfig, -, hstats, -⟩ := Network.eq_of_link hlink
  obtain ⟨config, stats, rfl⟩ := h.exists_eq hbuilt.linked hbuilt.assigned_eq_zero
  show { net with config := {}, stats := {} } = net
  rw [← hconfig, ← hstats]

end Network

open Network

/-- Networks leave the declaration of a variable alone. -/
theorem Variable.Becomes.declaration_eq {w w' : Variable} (h : w.Becomes w') :
    w'.declaration = w.declaration := by
  induction h with
  | unused => rfl
  | @used w₁ w₂ vars constraints net net' x _ hx hlink hreaches hx' ih =>
      have hvars : net'.vars = net.vars := by rw [← hreaches.eq_of_link hlink]
      rw [hvars, getElem?_vars_of_link hlink, hx, Option.map_some, Option.some.injEq] at hx'
      rw [← ih, ← hx']
      rfl

/-- Networks leave the text of a constraint alone, and what its predicate says by names. -/
theorem Constraint.Becomes.alike {c c' : Constraint} (h : c.Becomes c') : c.Alike c' := by
  induction h with
  | unused => exact ⟨rfl, rfl, fun _ => rfl⟩
  | @used c₁ c₂ vars constraints net net' k _ hk hlink hreaches hk' ih =>
      have hconstraints : net'.constraints = net.constraints := by rw [← hreaches.eq_of_link hlink]
      rw [hconstraints, (eq_of_link hlink).2.2.1, List.getElem?_map, hk, Option.map_some,
        Option.some.injEq] at hk'
      subst hk'
      exact ⟨ih.source, (Expr.names_bind _).trans ih.names, fun resolve =>
        (Expr.bind_bind _ resolve _).trans (ih.bind resolve)⟩

namespace Network

variable {net net' : Network} {vars vars' : List Variable} {constraints constraints' : List Constraint}

/-! ## What linking reads -/

theorem map_eq_map_of_forall₂ {α β : Type} {R : α → α → Prop} {f : α → β} {as bs : List α}
    (h : List.Forall₂ R as bs) (hf : ∀ a b, R a b → f b = f a) : bs.map f = as.map f := by
  induction h with
  | nil => rfl
  | cons hab _ ih => rw [List.map_cons, List.map_cons, hf _ _ hab, ih]

/-- Whether variables are sound shows in their declarations. -/
theorem checkVariablesFrom_congr (names : List String)
    (h : List.Forall₂ (fun w w' : Variable => w'.declaration = w.declaration) vars vars') :
    checkVariablesFrom names vars' = checkVariablesFrom names vars := by
  induction h generalizing names with
  | nil => rfl
  | cons hw _ ih =>
      obtain ⟨hname, hdomain⟩ := Prod.mk.inj hw
      simp only [checkVariablesFrom, hname, hdomain, ih]

/-- What linking makes of variables shows in their declarations. -/
theorem mapIdx_congr (links : Nat → List Nat)
    (h : List.Forall₂ (fun w w' : Variable => w'.declaration = w.declaration) vars vars') :
    vars'.mapIdx (fun x w => ({ w with value := none, constraints := links x } : Variable))
      = vars.mapIdx fun x w => { w with value := none, constraints := links x } := by
  induction h generalizing links with
  | nil => rfl
  | cons hw _ ih =>
      obtain ⟨hname, hdomain⟩ := Prod.mk.inj hw
      rw [List.mapIdx_cons, List.mapIdx_cons, ih fun x => links (x + 1)]
      simp only [hname, hdomain]

/-- Linking depends on the declarations and on the predicates by names alone. -/
theorem link_congr
    (hvars : List.Forall₂ (fun w w' : Variable => w'.declaration = w.declaration) vars vars')
    (hconstraints : List.Forall₂ Constraint.Alike constraints constraints') :
    link vars' constraints' = link vars constraints := by
  have hnames : vars'.map (·.name) = vars.map (·.name) :=
    map_eq_map_of_forall₂ hvars fun _ _ h => congrArg Prod.fst h
  have hlinked : ∀ names, constraints'.map (linkConstraint names) = constraints.map (linkConstraint names) := by
    intro names
    refine map_eq_map_of_forall₂ hconstraints fun c c' h => ?_
    simp only [linkConstraint, mentioned, h.source, h.names, h.bind]
  have hunresolved : ∀ names, unresolvedNames names constraints' = unresolvedNames names constraints := by
    intro names
    have hall : constraints'.map (·.expr.names) = constraints.map (·.expr.names) :=
      map_eq_map_of_forall₂ hconstraints fun _ _ h => h.names
    have hcollect : ∀ cs : List Constraint, unresolvedNames names cs
        = ((cs.map (·.expr.names)).flatMap (List.filter (! names.contains ·))).eraseDups := by
      intro cs
      rw [unresolvedNames, List.flatMap_map]
    rw [hcollect, hcollect, hall]
  simp only [link, checkVariables, checkVariablesFrom_congr [] hvars, hnames, hlinked, hunresolved,
    mapIdx_congr _ hvars]

/-! ## Used variables and constraints -/

/-- What became of variables and constraints is linked as they are. -/
theorem link_eq_of_becomes (hvars : List.Forall₂ Variable.Becomes vars vars')
    (hconstraints : List.Forall₂ Constraint.Becomes constraints constraints') :
    link vars' constraints' = link vars constraints :=
  link_congr (hvars.imp fun _ _ h => h.declaration_eq) (hconstraints.imp fun _ _ h => h.alike)

/-- A network that was solved holds what became of the variables that were linked. -/
theorem becomes_vars_of_reaches (hlink : link vars constraints = .ok net) (hreaches : net.Reaches net') :
    List.Forall₂ Variable.Becomes vars net'.vars := by
  have hvars : net'.vars = net.vars := by rw [← hreaches.eq_of_link hlink]
  have hlength : vars.length = net'.vars.length := by
    rw [hvars, (eq_of_link hlink).2.1, List.length_mapIdx]
  refine List.forall₂_iff_get.mpr ⟨hlength, fun x hx hx' => ?_⟩
  exact .used .unused (List.getElem?_eq_getElem hx) hlink hreaches (List.getElem?_eq_getElem hx')

/-- A network that was solved holds what became of the constraints that were linked. -/
theorem becomes_constraints_of_reaches (hlink : link vars constraints = .ok net)
    (hreaches : net.Reaches net') : List.Forall₂ Constraint.Becomes constraints net'.constraints := by
  have hconstraints : net'.constraints = net.constraints := by rw [← hreaches.eq_of_link hlink]
  have hlength : constraints.length = net'.constraints.length := by
    rw [hconstraints, (eq_of_link hlink).2.2.1, List.length_map]
  refine List.forall₂_iff_get.mpr ⟨hlength, fun k hk hk' => ?_⟩
  exact .used .unused (List.getElem?_eq_getElem hk) hlink hreaches (List.getElem?_eq_getElem hk')

/-- Linking makes of variables and constraints the same whatever networks they were in before, and it makes a network
again of its own ones, the configuration and the counters aside. Behind it stands that binding forgets former bindings
and shows neither in the names of an expression nor in its printed form. -/
theorem link_of_becomes (hvars : List.Forall₂ Variable.Becomes vars vars')
    (hconstraints : List.Forall₂ Constraint.Becomes constraints constraints') :
    link vars' constraints' = link vars constraints ∧
      (∀ net net', link vars' constraints' = .ok net → net.Reaches net' →
        link net'.vars net'.constraints = .ok { net' with config := {}, stats := {} }) ∧
      ∀ (first second : String → Option Nat) (e : Expr), (e.bind first).bind second = e.bind second ∧
        (e.bind first).names = e.names ∧ (e.bind first).text = e.text := by
  refine ⟨link_eq_of_becomes hvars hconstraints, ?_, fun first second e =>
    ⟨Expr.bind_bind first second e, Expr.names_bind e, Expr.text_bind e⟩⟩
  intro net net' hlink hreaches
  have hrelink := link_eq_of_becomes (becomes_vars_of_reaches hlink hreaches)
    (becomes_constraints_of_reaches hlink hreaches)
  rw [hrelink, hlink, hreaches.eq_of_link hlink]

/-- New variables and a new constraint, one name of which none of them has. -/
def summands : List Variable :=
  [⟨"A", [.int 0, .int 1], none, []⟩, ⟨"B", [.int 0, .int 1, .int 2], none, []⟩]

def shifted : Constraint :=
  ⟨"k + A == B", .binary .eq (.binary .add (.ident "k") (.ident "A")) (.ident "B"), []⟩

/-- The network of these variables and this constraint. -/
def shifting : Network where
  vars := [⟨"A", [.int 0, .int 1], none, [0]⟩, ⟨"B", [.int 0, .int 1, .int 2], none, [0]⟩]
  constraints := [⟨"k + A == B", .binary .eq (.binary .add (.ident "k") (.slot 1 "A")) (.slot 0 "B"), [1, 0]⟩]
  unresolved := ["k"]

/-- After a solve that failed for want of the name, the constraint is linked as a new one is, with the name in front of
the variables that it was linked to. -/
theorem link_of_becomes_shifting :
    link summands [shifted] = .ok shifting ∧
      shifting.solve.result = .error ⟨"k + A == B", .unknownName "k"⟩ ∧
      link (⟨"k", [.int 1], none, []⟩ :: shifting.solve.network.vars) shifting.solve.network.constraints
        = link (⟨"k", [.int 1], none, []⟩ :: summands) [shifted] := by
  have hlink : link summands [shifted] = .ok shifting := by cbv
  have hreaches : shifting.Reaches shifting.solve.network := .solve .refl
  refine ⟨hlink, by cbv, ?_⟩
  exact (link_of_becomes (.cons .unused (becomes_vars_of_reaches hlink hreaches))
    (becomes_constraints_of_reaches hlink hreaches)).1

end Network

end FiniteDomain
