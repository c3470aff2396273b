import FiniteDomain.Network.Assignment

/-!
# Trails

A trail records the values that are removed from domains, each with the position that it had at that moment.
Putting them back from the latest to the earliest restores every domain, order included. Trails made one
after the other are joined in that order, and revert as one.
-/

namespace FiniteDomain

/-- A value removed from a domain. -/
structure Removal where
  /-- The number of the variable. -/
  variableNumber : Nat
  /-- The position of the value in the domain when it was removed. -/
  position : Nat
  value : Value
  deriving DecidableEq

/-- The removals made so far, the latest first. -/
structure Trail where
  removals : List Removal := []
  deriving DecidableEq

namespace Trail

/-- The variables and the trail after the value at a position is removed from the domain of `x`. -/
def remove (t : Trail) (vars : List Variable) (x position : Nat) : List Variable × Trail :=
  match (Variables.domain vars x)[position]? with
  | none => (vars, t)
  | some v =>
      (Variables.mapDomain vars x (·.eraseIdx position), ⟨⟨x, position, v⟩ :: t.removals⟩)

/-- The trail of `earlier` followed by the trail of `later`. -/
def append (earlier later : Trail) : Trail :=
  ⟨later.removals ++ earlier.removals⟩

instance : Append Trail := ⟨append⟩

/-- The variables after one removed value is put back. -/
def restore (vars : List Variable) (r : Removal) : List Variable :=
  Variables.mapDomain vars r.variableNumber (·.insertIdx r.position r.value)

/-- The variables after every removed value is put back. -/
def revert (t : Trail) (vars : List Variable) : List Variable :=
  t.removals.foldl restore vars

/-- The variables that lost a value, in the order of their first loss. -/
def changed (t : Trail) : List Nat :=
  (t.removals.reverse.map (·.variableNumber)).eraseDups

/-- The values that `x` lost, the earliest first. -/
def removedFrom (t : Trail) (x : Nat) : List Value :=
  (t.removals.reverse.filter (·.variableNumber = x)).map (·.value)

/-- The values that each variable lost, by ascending number of the variable. -/
def byVariable (t : Trail) : List (Nat × List Value) :=
  (t.changed.mergeSort (· ≤ ·)).map fun x => (x, t.removedFrom x)

/-! ## One removal -/

/-- What stands from a position on after the item there is erased. -/
theorem drop_eraseIdx_self {α : Type} (as : List α) (i : Nat) :
    (as.eraseIdx i).drop i = as.drop (i + 1) := by
  induction as generalizing i with
  | nil => simp
  | cons a as ih => cases i <;> simp [ih]

theorem remove_of_getElem? {t : Trail} {vars : List Variable} {x position : Nat} {v : Value}
    (h : (Variables.domain vars x)[position]? = some v) :
    (t.remove vars x position).1 = Variables.mapDomain vars x (·.eraseIdx position) := by
  simp [remove, h]

/-- Removing a value takes it out of its domain. -/
theorem domain_remove {t : Trail} {vars : List Variable} {x position : Nat} {v : Value}
    (h : (Variables.domain vars x)[position]? = some v) :
    Variables.domain (t.remove vars x position).1 x
      = (Variables.domain vars x).eraseIdx position := by
  rw [remove_of_getElem? h]
  cases hx : vars[x]? with
  | none => simp [Variables.domain, hx] at h
  | some w => simp [Variables.domain, Variables.mapDomain, hx]

/-- Removing a value lowers the number of values by one. -/
theorem totalSize_remove {t : Trail} {vars : List Variable} {x position : Nat} {v : Value}
    (h : (Variables.domain vars x)[position]? = some v) :
    Variables.totalSize (t.remove vars x position).1 + 1 = Variables.totalSize vars := by
  rw [remove_of_getElem? h, Variables.mapDomain]
  induction vars generalizing x with
  | nil => simp [Variables.domain] at h
  | cons w ws ih =>
      cases x with
      | zero =>
          have hp : position < w.domain.length := by
            simp only [Variables.domain, List.getElem?_cons_zero, Option.map_some, Option.getD_some] at h
            exact (List.getElem?_eq_some_iff.1 h).1
          simp only [Variables.totalSize, List.modify_zero_cons, List.foldr_cons,
            List.length_eraseIdx, hp, if_true]
          omega
      | succ x =>
          have ih := ih (x := x) (by simpa [Variables.domain] using h)
          simp only [Variables.totalSize, List.modify_succ_cons, List.foldr_cons] at ih ⊢
          omega

end Trail

end FiniteDomain
