import Mathlib.Data.List.InsertIdx
import FiniteDomain.Proofs.Network.Pruning

/-!
# Sifting a domain

Both consistencies go through a domain by position and take away, one after the other, the values that fail a test. On
the way the values before the position have passed the test and those behind it wait, and no value that passes is
taken: the domain has the values that pass, as it had at the start (`Sifting`). A value that passes moves the position
on, one that fails is removed at the position; at the end the domain is filtered (`Sifting.domain_eq_filter`).
-/

namespace FiniteDomain

open Variables

/-! ## Positions of a list -/

/-- The value at the front of what is left of a domain stands at the position that is reached. -/
theorem getElem?_of_drop {α : Type} {as bs : List α} {a : α} {i : Nat} (h : as.drop i = a :: bs) :
    as[i]? = some a := by
  rw [← List.head?_drop, h, List.head?_cons]

theorem drop_succ_of_drop {α : Type} {as bs : List α} {a : α} {i : Nat} (h : as.drop i = a :: bs) :
    as.drop (i + 1) = bs := by
  rw [← List.tail_drop, h, List.tail_cons]

theorem take_succ_of_drop {α : Type} {as bs : List α} {a : α} {i : Nat} (h : as.drop i = a :: bs) :
    as.take (i + 1) = as.take i ++ [a] := by
  rw [List.take_add_one, getElem?_of_drop h, Option.toList_some]

/-- Erasing an item that a filter drops does not show after filtering. -/
theorem filter_eraseIdx_of_drop {α : Type} {p : α → Bool} {as bs : List α} {a : α} {i : Nat}
    (h : as.drop i = a :: bs) (ha : p a = false) : (as.eraseIdx i).filter p = as.filter p := by
  have hsplit : as.filter p = (as.take i).filter p ++ bs.filter p := by
    conv_lhs => rw [← List.take_append_drop i as, h]
    simp [ha]
  rw [List.eraseIdx_eq_take_drop_succ, drop_succ_of_drop h, List.filter_append, hsplit]

/-! ## A domain on the way -/

/-- The domain of `x` has been tested up to a position, since it was what it is at `start`: what was before the position
and failed the test is gone, and `vs` are the values that wait. -/
structure Sifting (net : Network) (x : Nat) (p : Value → Bool) (start : Run) (position : Nat) (vs : List Value)
    (r : Run) : Prop where
  prunes : Prunes net start r
  drop : (domain r.vars x).drop position = vs
  take : ∀ v ∈ (domain r.vars x).take position, p v = true
  filter : (domain r.vars x).filter p = (domain start.vars x).filter p
  domain_eq : ∀ y, y ≠ x → domain r.vars y = domain start.vars y

namespace Sifting

variable {net : Network} {x position : Nat} {p : Value → Bool} {start r r' : Run} {v : Value} {vs : List Value}

theorem refl (net : Network) (x : Nat) (p : Value → Bool) (r : Run) : Sifting net x p r 0 (domain r.vars x) r :=
  ⟨Prunes.refl net r, rfl, by simp, rfl, fun _ _ => rfl⟩

/-- A test that changes no variable does not move anything. -/
theorem quiet (h : Sifting net x p start position vs r) (hquiet : Quiet r r') :
    Sifting net x p start position vs r' := by
  refine ⟨h.prunes.trans hquiet.prunes, ?_, ?_, ?_, ?_⟩ <;> rw [hquiet.vars]
  · exact h.drop
  · exact h.take
  · exact h.filter
  · exact h.domain_eq

/-- A value that passes stays. -/
theorem keep (h : Sifting net x p start position (v :: vs) r) (hv : p v = true) :
    Sifting net x p start (position + 1) vs r := by
  refine ⟨h.prunes, drop_succ_of_drop h.drop, ?_, h.filter, h.domain_eq⟩
  rw [take_succ_of_drop h.drop]
  intro u hu
  rcases List.mem_append.mp hu with hu | hu
  · exact h.take u hu
  · rw [List.mem_singleton.mp hu]
    exact hv

/-- A value that fails is removed, if that prunes. -/
theorem remove (h : Sifting net x p start position (v :: vs) r) (hv : p v = false)
    (hprunes : Prunes net r (r.removeValue x position)) :
    Sifting net x p start position vs (r.removeValue x position) := by
  have hself : domain (r.removeValue x position).vars x = (domain r.vars x).eraseIdx position :=
    Trail.domain_remove (getElem?_of_drop h.drop)
  refine ⟨h.prunes.trans hprunes, ?_, ?_, ?_, fun y hy => ?_⟩
  · rw [hself, Trail.drop_eraseIdx_self, drop_succ_of_drop h.drop]
  · rw [hself, List.take_eraseIdx_eq_take_of_le _ _ _ (Nat.le_refl position)]
    exact h.take
  · rw [hself, filter_eraseIdx_of_drop h.drop hv, h.filter]
  · rw [← h.domain_eq y hy]
    show domain (r.trail.remove r.vars x position).1 y = domain r.vars y
    rw [Trail.remove_of_getElem? (getElem?_of_drop h.drop), domain_mapDomain_of_ne _ hy]

/-- At the end the values that pass are left, in their order. -/
theorem domain_eq_filter (h : Sifting net x p start position [] r) :
    domain r.vars x = (domain start.vars x).filter p := by
  have hall : (domain r.vars x).take position = domain r.vars x := by
    have happend := List.take_append_drop position (domain r.vars x)
    rwa [h.drop, List.append_nil] at happend
  rw [← h.filter]
  exact (List.filter_eq_self.mpr (hall ▸ h.take)).symm

end Sifting

end FiniteDomain
