import FiniteDomain.Expr.Evaluation
import FiniteDomain.Problem.Basic

/-!
# Assignments

Reading and changing what the variables of a network hold, by number, and the truth of a constraint under the
values that its variables hold.
-/

namespace FiniteDomain

namespace Variables

/-- The value that the variable `x` holds. -/
def value? (vars : List Variable) (x : Nat) : Option Value :=
  vars[x]?.bind (·.value)

/-- The values that are still possible for the variable `x`. -/
def domain (vars : List Variable) (x : Nat) : List Value :=
  (vars[x]?.map (·.domain)).getD []

/-- The name of the variable `x`. -/
def name (vars : List Variable) (x : Nat) : String :=
  (vars[x]?.map (·.name)).getD ""

/-- The numbers of the constraints that mention the variable `x`. -/
def links (vars : List Variable) (x : Nat) : List Nat :=
  (vars[x]?.map (·.constraints)).getD []

/-- The variables after `x` is given a value. -/
def assign (vars : List Variable) (x : Nat) (v : Value) : List Variable :=
  vars.modify x fun w => { w with value := some v }

/-- The variables after `x` is freed. -/
def free (vars : List Variable) (x : Nat) : List Variable :=
  vars.modify x fun w => { w with value := none }

/-- The variables after the domain of `x` is changed. -/
def mapDomain (vars : List Variable) (x : Nat) (f : List Value → List Value) : List Variable :=
  vars.modify x fun w => { w with domain := f w.domain }

/-- The number of values in all domains together. -/
def totalSize (vars : List Variable) : Nat :=
  vars.foldr (fun w n => w.domain.length + n) 0

/-! ## What a change leaves alone -/

/-- A change of one variable does not show in a part of it that the change keeps. -/
theorem map_modify_of_keeps {α : Type} (g : Variable → α) (f : Variable → Variable)
    (hg : ∀ w, g (f w) = g w) (vars : List Variable) (x : Nat) :
    (vars.modify x f).map g = vars.map g := by
  induction vars generalizing x with
  | nil => simp
  | cons w ws ih => cases x <;> simp [hg, ih]

/-- Giving a variable a value leaves the domains alone. -/
@[simp] theorem map_domain_assign (vars : List Variable) (x : Nat) (v : Value) :
    (assign vars x v).map (·.domain) = vars.map (·.domain) :=
  map_modify_of_keeps _ _ (by intro w; rfl) vars x

/-- Freeing a variable leaves the domains alone. -/
@[simp] theorem map_domain_free (vars : List Variable) (x : Nat) :
    (free vars x).map (·.domain) = vars.map (·.domain) :=
  map_modify_of_keeps _ _ (by intro w; rfl) vars x

theorem domain_eq_of_map_domain {vars vars' : List Variable}
    (h : vars'.map (·.domain) = vars.map (·.domain)) (x : Nat) :
    domain vars' x = domain vars x := by
  have hx := congrArg (·[x]?) h
  simp only [List.getElem?_map] at hx
  rw [domain, domain, hx]

theorem totalSize_eq_of_map_domain {vars vars' : List Variable}
    (h : vars'.map (·.domain) = vars.map (·.domain)) : totalSize vars' = totalSize vars := by
  have hl := congrArg (List.foldr (fun d n => d.length + n) 0) h
  rwa [List.foldr_map, List.foldr_map] at hl

end Variables

namespace Constraint

/-- The value of the variable `x`, which has to hold one. -/
def slotValue (vars : List Variable) (x : Nat) : Except EvalError Value :=
  match Variables.value? vars x with
  | some v => .ok v
  | none => .error (.unassignedVariable (Variables.name vars x))

/-- The values of the variables, each of which has to hold one. -/
def slotValues (vars : List Variable) : List Nat → Except EvalError (List Value)
  | [] => .ok []
  | x :: xs => do
      let v ← slotValue vars x
      return v :: (← slotValues vars xs)

/-- The truth value that a predicate amounts to. -/
def truthOf : Value → Except EvalError Bool
  | .bool b => .ok b
  | v => .error (.notBoolean v)

/-- Whether the constraint is true under the values that its variables hold. -/
def holds (c : Constraint) (vars : List Variable) : Except EvalError Bool := do
  let slots ← slotValues vars c.scope
  truthOf (← c.expr.eval slots)

/-- The variables of the constraint that hold no value. -/
def unassigned (c : Constraint) (vars : List Variable) : List Nat :=
  c.scope.filter fun x => (Variables.value? vars x).isNone

end Constraint

end FiniteDomain
