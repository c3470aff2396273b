import FiniteDomain.Network.Basic
import FiniteDomain.Proofs.Network.Variables

/-!
# Assignments that satisfy a network

A complete assignment gives every variable number a value. It extends the variables of a running solve if it
agrees with the values that are held and takes the others from the domains that are left; it satisfies a network
if every constraint is true under it. Evaluating a constraint under the values held says what the constraint is
under every extension (`eval_of_holds`), and that is what all pruning rests on.
-/

namespace FiniteDomain

/-- The constraint is true under the complete assignment `a`. -/
def Constraint.SatisfiedBy (c : Constraint) (a : Nat → Value) : Prop :=
  c.expr.eval (c.scope.map a) = .ok (.bool true)

/-- Every constraint is true under the complete assignment `a`. -/
def Network.SatisfiedBy (net : Network) (a : Nat → Value) : Prop :=
  ∀ c ∈ net.constraints, c.SatisfiedBy a

/-- The complete assignment `a` agrees with the values held and takes the others from the domains. -/
structure Variables.Extends (a : Nat → Value) (vars : List Variable) : Prop where
  held : ∀ x v, value? vars x = some v → a x = v
  mem_domain : ∀ x, x < vars.length → value? vars x = none → a x ∈ domain vars x

/-! ## Evaluation under the values held -/

namespace Constraint

variable {c : Constraint} {vars : List Variable} {a : Nat → Value} {b : Bool}

/-- The values of variables that hold them are found. -/
theorem slotValues_of_held {xs : List Nat} (h : ∀ x ∈ xs, Variables.value? vars x = some (a x)) :
    slotValues vars xs = .ok (xs.map a) := by
  induction xs with
  | nil => rfl
  | cons x xs ih =>
      have hx : slotValue vars x = .ok (a x) := by
        rw [slotValue, h x List.mem_cons_self]
      rw [slotValues, hx, ih fun y hy => h y (List.mem_cons_of_mem x hy)]
      rfl

/-- The values of variables are found only if each of them holds one. -/
theorem isSome_of_slotValues {xs : List Nat} {vs : List Value} (h : slotValues vars xs = .ok vs) :
    ∀ x ∈ xs, (Variables.value? vars x).isSome := by
  induction xs generalizing vs with
  | nil => simp
  | cons x xs ih =>
      rw [slotValues, slotValue] at h
      cases hx : Variables.value? vars x with
      | none => simp [hx, bind, Except.bind] at h
      | some v =>
          cases hxs : slotValues vars xs with
          | error e => simp [hx, hxs, bind, Except.bind] at h
          | ok us =>
              intro y hy
              rcases List.mem_cons.mp hy with rfl | hy
              · simp [hx]
              · exact ih hxs y hy

/-- Under held values a constraint has the value that its predicate has under them. -/
theorem holds_eq_of_held (h : ∀ x ∈ c.scope, Variables.value? vars x = some (a x)) :
    c.holds vars = c.expr.eval (c.scope.map a) >>= truthOf := by
  rw [holds, slotValues_of_held h]
  rfl

/-- The truth of a constraint depends on the values of its variables alone. -/
theorem holds_congr {vars' : List Variable}
    (h : ∀ x ∈ c.scope, Variables.value? vars' x = Variables.value? vars x)
    (hsome : ∀ x ∈ c.scope, (Variables.value? vars x).isSome) : c.holds vars' = c.holds vars := by
  have hheld : ∀ x ∈ c.scope, Variables.value? vars x = some ((Variables.value? vars x).getD (.bool true)) := by
    intro x hx
    obtain ⟨w, hw⟩ := Option.isSome_iff_exists.mp (hsome x hx)
    rw [hw]
    rfl
  rw [holds_eq_of_held hheld, holds_eq_of_held fun x hx => (h x hx).trans (hheld x hx)]

/-- Whether a constraint is true, false or fails depends on names and values held alone. -/
theorem holds_eq_of_frame {vars' : List Variable} (hframe : Variables.frame vars' = Variables.frame vars)
    (h : ∀ x, Variables.value? vars' x = Variables.value? vars x) : c.holds vars' = c.holds vars := by
  have hslots : ∀ xs, slotValues vars' xs = slotValues vars xs := by
    intro xs
    induction xs with
    | nil => rfl
    | cons x xs ih => rw [slotValues, slotValues, slotValue, slotValue, h, Variables.name_eq_of_frame hframe, ih]
  rw [holds, holds, hslots]

/-- A constraint has a truth value only if its variables hold values. -/
theorem isSome_of_holds (h : c.holds vars = .ok b) :
    ∀ x ∈ c.scope, (Variables.value? vars x).isSome := by
  rw [holds] at h
  cases hs : slotValues vars c.scope with
  | error e => simp [hs, bind, Except.bind] at h
  | ok vs => exact isSome_of_slotValues hs

theorem truthOf_eq_ok_iff {v : Value} : truthOf v = .ok b ↔ v = .bool b := by
  cases v <;> simp [truthOf]

/-- A predicate amounts to a truth value exactly if it has this truth value. -/
theorem bind_truthOf_eq_ok_iff {out : Except EvalError Value} :
    (out >>= truthOf) = .ok b ↔ out = .ok (.bool b) := by
  cases out with
  | error e => simp [bind, Except.bind]
  | ok v => simp [bind, Except.bind, truthOf_eq_ok_iff]

/-- The truth value of a constraint under the values held is its value under every extension. -/
theorem eval_of_holds (ha : Variables.Extends a vars) (h : c.holds vars = .ok b) :
    c.expr.eval (c.scope.map a) = .ok (.bool b) := by
  have hheld : ∀ x ∈ c.scope, Variables.value? vars x = some (a x) := by
    intro x hx
    obtain ⟨v, hv⟩ := Option.isSome_iff_exists.mp (isSome_of_holds h x hx)
    rw [hv, ha.held x v hv]
  rwa [holds_eq_of_held hheld, bind_truthOf_eq_ok_iff] at h

theorem satisfiedBy_of_holds (ha : Variables.Extends a vars) (h : c.holds vars = .ok true) :
    c.SatisfiedBy a :=
  eval_of_holds ha h

/-- A constraint that is false under the values held is violated by every extension. -/
theorem not_satisfiedBy_of_holds (ha : Variables.Extends a vars) (h : c.holds vars = .ok false) :
    ¬ c.SatisfiedBy a := by
  intro hs
  rw [SatisfiedBy, eval_of_holds ha h] at hs
  simp at hs

end Constraint

/-! ## Extensions -/

namespace Variables.Extends

variable {vars vars' : List Variable} {a : Nat → Value} {x : Nat} {v : Value}

/-- An extension that gives `x` the value `v` still is one when `x` holds `v`. -/
theorem assign (ha : Extends a vars) (hv : a x = v) : Extends a (Variables.assign vars x v) := by
  constructor
  · intro y w hw
    by_cases hy : y = x
    · subst hy
      have hlt := lt_length_of_value?_isSome (Option.isSome_iff_exists.mpr ⟨w, hw⟩)
      rw [value?_assign_self (by simpa using hlt), Option.some.injEq] at hw
      rw [hv, hw]
    · rw [value?_assign_of_ne hy] at hw
      exact ha.held y w hw
  · intro y hlt hy
    rw [length_assign] at hlt
    rw [domain_assign]
    refine ha.mem_domain y hlt ?_
    by_cases hyx : y = x
    · subst hyx
      rw [value?_assign_self hlt] at hy
      cases hy
    · rwa [value?_assign_of_ne hyx] at hy

/-- An extension of the variables in which `x` holds `v` gives `x` that value. -/
theorem eq_of_assign (ha : Extends a (Variables.assign vars x v)) (hx : x < vars.length) : a x = v :=
  ha.held x v (value?_assign_self hx)

/-- An extension of the variables in which `x` holds a value of its domain extends them without it. -/
theorem of_assign (ha : Extends a (Variables.assign vars x v)) (hfree : value? vars x = none)
    (hv : v ∈ domain vars x) : Extends a vars := by
  have hx : x < vars.length := lt_length_of_domain_ne_nil (List.ne_nil_of_mem hv)
  constructor
  · intro y w hw
    have hy : y ≠ x := by
      rintro rfl
      rw [hfree] at hw
      cases hw
    exact ha.held y w (by rwa [value?_assign_of_ne hy])
  · intro y hlt hy
    by_cases hyx : y = x
    · subst hyx
      rwa [ha.eq_of_assign hx]
    · have hd := ha.mem_domain y (by simpa using hlt) (by rwa [value?_assign_of_ne hyx])
      rwa [domain_assign] at hd

/-- Nothing extends variables one of which has no value left. -/
theorem false_of_domain_eq_nil (ha : Extends a vars) (hx : x < vars.length)
    (hfree : value? vars x = none) (hd : domain vars x = []) : False := by
  have hm := ha.mem_domain x hx hfree
  rw [hd] at hm
  cases hm

end Variables.Extends

/-- Some variable that holds no value has no value left. -/
def Dead (vars : List Variable) : Prop :=
  ∃ x, x < vars.length ∧ Variables.value? vars x = none ∧ Variables.domain vars x = []

/-- Nothing extends variables one of which has no value left. -/
theorem Dead.not_extends {vars : List Variable} {a : Nat → Value} (h : Dead vars) : ¬ Variables.Extends a vars := by
  obtain ⟨x, hx, hfree, hd⟩ := h
  exact fun ha => ha.false_of_domain_eq_nil hx hfree hd

end FiniteDomain
