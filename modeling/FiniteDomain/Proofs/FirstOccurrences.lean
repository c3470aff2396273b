import Mathlib.Data.List.Basic

/-!
# Lists without their later occurrences

What stays when every item is dropped that has come before: no item twice (`nodup_eraseDups`), in the order in which
the items first come (`pairwise_idxOf_eraseDups`), and the same whether other items are taken out before or after
(`eraseDups_filter`).
-/

namespace FiniteDomain

variable {α : Type} [BEq α] [LawfulBEq α] {as : List α} {a b : α}

/-- Among the items that pass a test, the order of first occurrences is the one among all items. -/
theorem idxOf_lt_idxOf_of_filter {p : α → Bool} (ha : p a = true) (hb : p b = true)
    (h : (as.filter p).idxOf a < (as.filter p).idxOf b) : as.idxOf a < as.idxOf b := by
  induction as with
  | nil => simp at h
  | cons c cs ih =>
      by_cases hca : c = a
      · subst hca
        by_cases hcb : c = b
        · subst hcb
          exact absurd h (Nat.lt_irrefl _)
        · rw [List.idxOf_cons_self, List.idxOf_cons_ne cs hcb]
          exact Nat.succ_pos _
      · by_cases hcb : c = b
        · subst hcb
          rw [List.filter_cons_of_pos hb, List.idxOf_cons_self] at h
          exact absurd h (Nat.not_lt_zero _)
        · rw [List.idxOf_cons_ne cs hca, List.idxOf_cons_ne cs hcb]
          refine Nat.succ_lt_succ (ih ?_)
          cases hc : p c with
          | true =>
              rw [List.filter_cons_of_pos hc, List.idxOf_cons_ne _ hca, List.idxOf_cons_ne _ hcb] at h
              exact Nat.lt_of_succ_lt_succ h
          | false => rwa [List.filter_cons_of_neg (by simp [hc])] at h

/-- Without repetitions, items stand in the order of their first occurrences. -/
theorem pairwise_idxOf_eraseDups (as : List α) :
    as.eraseDups.Pairwise fun a b => as.idxOf a < as.idxOf b := by
  match as with
  | [] => simp
  | a :: as =>
      have ih := pairwise_idxOf_eraseDups (as.filter fun b => !b == a)
      have hne : ∀ b ∈ (as.filter fun b => !b == a).eraseDups, b ≠ a := by
        intro b hb
        simpa using (List.mem_filter.mp (List.mem_eraseDups.mp hb)).2
      rw [List.eraseDups_cons, List.pairwise_cons]
      constructor
      · intro b hb
        rw [List.idxOf_cons_self, List.idxOf_cons_ne as (hne b hb).symm]
        exact Nat.succ_pos _
      · refine ih.imp_of_mem fun {b c} hb hc h => ?_
        rw [List.idxOf_cons_ne as (hne b hb).symm, List.idxOf_cons_ne as (hne c hc).symm]
        exact Nat.succ_lt_succ (idxOf_lt_idxOf_of_filter (by simp [hne b hb]) (by simp [hne c hc]) h)
termination_by as.length
decreasing_by exact Nat.lt_succ_of_le (List.length_filter_le ..)

/-- Removing the later occurrences leaves no repetition. -/
theorem nodup_eraseDups (as : List α) : as.eraseDups.Nodup := by
  refine (pairwise_idxOf_eraseDups as).imp fun {a b} h => ?_
  rintro rfl
  exact Nat.lt_irrefl _ h

/-- Removing repetitions and filtering commute. -/
theorem eraseDups_filter (p : α → Bool) (as : List α) :
    (as.filter p).eraseDups = as.eraseDups.filter p := by
  match as with
  | [] => rfl
  | a :: as =>
      have ih := eraseDups_filter p (as.filter fun b => !b == a)
      rw [List.filter_filter] at ih
      cases hp : p a with
      | true =>
          rw [List.filter_cons_of_pos hp, List.eraseDups_cons, List.eraseDups_cons,
            List.filter_cons_of_pos hp, ← ih, List.filter_filter]
          simp only [Bool.and_comm]
      | false =>
          rw [List.filter_cons_of_neg (by simp [hp]), List.eraseDups_cons,
            List.filter_cons_of_neg (by simp [hp]), ← ih]
          -- What equals the item fails the test as well.
          congr 1
          refine List.filter_congr fun b _ => ?_
          by_cases hb : b = a
          · simp [hb, hp]
          · simp [hb]
termination_by as.length
decreasing_by exact Nat.lt_succ_of_le (List.length_filter_le ..)

end FiniteDomain
