import FiniteDomain.Network.Heuristic
import FiniteDomain.Proofs.Network.Linked

/-!
# The order by degree

The most constrained open variable is found by counting the open occurrences in the constraints anew at every choice.
As long as a variable is open its occurrences are, whatever has happened to the others, all those that there are; so
the choice is always the next variable of one fixed order, in which the variables stand by their number of constraints
and, where these are equal, by their first occurrence (`firstBest_filter_constrained`).
-/

namespace FiniteDomain

/-! ## Which of two items comes first -/

section Pairs

variable {α : Type} {as : List α} {a b : α}

/-- Where items differ, of two of them one comes first. -/
theorem not_pair_sublist_swap (hnodup : as.Nodup) (h : [a, b].Sublist as) : ¬ [b, a].Sublist as := by
  induction as with
  | nil => cases h
  | cons c as ih =>
      obtain ⟨hc, hnodup⟩ := List.nodup_cons.mp hnodup
      intro h'
      cases h with
      | cons _ h =>
          cases h' with
          | cons _ h' => exact ih hnodup h h'
          | cons_cons _ h' => exact hc (h.subset (by simp))
      | cons_cons _ h =>
          cases h' with
          | cons _ h' => exact hc (h'.subset (by simp))
          | cons_cons _ h' => exact hc (h'.subset (by simp))

theorem pair_sublist_or_swap (ha : a ∈ as) (hb : b ∈ as) (hne : a ≠ b) :
    [a, b].Sublist as ∨ [b, a].Sublist as := by
  obtain ⟨before, after, rfl⟩ := List.append_of_mem ha
  rcases List.mem_append.mp hb with hb | hb
  · exact .inr ((List.singleton_sublist.mpr hb).append (List.singleton_sublist.mpr List.mem_cons_self))
  · have hb : b ∈ after := (List.mem_cons.mp hb).resolve_left hne.symm
    exact .inl (((List.singleton_sublist.mpr hb).cons_cons a).trans (List.sublist_append_right ..))

end Pairs

namespace Heuristic

/-! ## The order -/

variable {links scopes : List (List Nat)} {x y : Nat}

/-- The number of constraints that a variable is linked to. -/
def degree (links : List (List Nat)) (x : Nat) : Nat :=
  (links.getD x []).length

/-- The variables that occur in constraints, by their first occurrence. -/
def constrained (scopes : List (List Nat)) : List Nat :=
  scopes.flatten.eraseDups

/-- The variables that occur in constraints by decreasing degree, and by their first occurrence where that is
equal. -/
def byDegree (links scopes : List (List Nat)) : List Nat :=
  (constrained scopes).mergeSort fun x y => degree links y ≤ degree links x

/-- The variables in constraints by decreasing degree, followed by those in no constraint in the order of their
declaration. -/
def degreeOrder (links scopes : List (List Nat)) : List Nat :=
  byDegree links scopes ++ (List.range links.length).filter fun x => degree links x = 0

/-- One variable comes before another by degree. -/
def Outranks (links scopes : List (List Nat)) (x y : Nat) : Prop :=
  degree links y < degree links x ∨
    degree links y = degree links x ∧ [x, y].Sublist (constrained scopes)

theorem Outranks.asymm (h : Outranks links scopes x y) : ¬ Outranks links scopes y x := by
  rintro (hlt | ⟨heq, hafter⟩)
  · rcases h with h | h <;> omega
  · rcases h with h | ⟨-, hbefore⟩
    · omega
    · exact not_pair_sublist_swap (nodup_eraseDups _) hbefore hafter

theorem byDegree_perm (links scopes : List (List Nat)) :
    (byDegree links scopes).Perm (constrained scopes) :=
  List.mergeSort_perm ..

theorem nodup_byDegree (links scopes : List (List Nat)) : (byDegree links scopes).Nodup :=
  (byDegree_perm links scopes).nodup_iff.mpr (nodup_eraseDups _)

/-- Every variable in constraints comes before those behind it by degree. -/
theorem pairwise_byDegree (links scopes : List (List Nat)) :
    (byDegree links scopes).Pairwise (Outranks links scopes) := by
  have htrans : ∀ a b c : Nat, decide (degree links b ≤ degree links a) = true →
      decide (degree links c ≤ degree links b) = true → decide (degree links c ≤ degree links a) = true := by
    simp only [decide_eq_true_eq]
    omega
  have htotal : ∀ a b : Nat,
      (decide (degree links b ≤ degree links a) || decide (degree links a ≤ degree links b)) = true := by
    simp only [Bool.or_eq_true, decide_eq_true_eq]
    omega
  refine List.pairwise_iff_forall_sublist.mpr fun {x y} hxy => ?_
  have hle : degree links y ≤ degree links x := by
    simpa using List.pairwise_iff_forall_sublist.mp (List.pairwise_mergeSort htrans htotal _) hxy
  rcases Nat.lt_or_eq_of_le hle with hlt | heq
  · exact .inl hlt
  · have hmem : ∀ z ∈ [x, y], z ∈ constrained scopes := fun z hz =>
      (byDegree_perm links scopes).subset (hxy.subset hz)
    have hne : x ≠ y := List.pairwise_pair.mp ((nodup_byDegree links scopes).sublist hxy)
    rcases pair_sublist_or_swap (hmem x (by simp)) (hmem y (by simp)) hne with h | h
    · exact .inr ⟨heq, h⟩
    · -- Sorting keeps the order of variables of one degree.
      have hswap := List.pair_sublist_mergeSort htrans htotal (by simp [heq]) h
      exact absurd hswap (not_pair_sublist_swap (nodup_byDegree links scopes) hxy)

/-! ## The choice -/

/-- The candidate `b` is better than those before it, and none behind it is better. -/
def IsFirstBest (f : Nat → Nat) (b : Nat) (xs : List Nat) : Prop :=
  ∃ front back, xs = front ++ b :: back ∧ (∀ y ∈ front, f y < f b) ∧ ∀ y ∈ back, f y ≤ f b

namespace IsFirstBest

variable {f : Nat → Nat} {b z : Nat} {xs : List Nat}

theorem mem (h : IsFirstBest f b xs) : b ∈ xs := by
  obtain ⟨front, back, rfl, -⟩ := h
  simp

/-- No candidate is better. -/
theorem le (h : IsFirstBest f b xs) (hy : y ∈ xs) : f y ≤ f b := by
  obtain ⟨front, back, rfl, hfront, hback⟩ := h
  rcases List.mem_append.mp hy with hy | hy
  · exact Nat.le_of_lt (hfront y hy)
  · rcases List.mem_cons.mp hy with rfl | hy
    · exact Nat.le_refl _
    · exact hback y hy

/-- A candidate in front that is worse than the next changes nothing. -/
theorem cons_of_lt (h : IsFirstBest f b (z :: xs)) (hz : f x < f z) : IsFirstBest f b (x :: z :: xs) := by
  have hx : f x < f b := Nat.lt_of_lt_of_le hz (h.le List.mem_cons_self)
  obtain ⟨front, back, heq, hfront, hback⟩ := h
  refine ⟨x :: front, back, by rw [heq, List.cons_append], ?_, hback⟩
  intro y hy
  rcases List.mem_cons.mp hy with rfl | hy
  · exact hx
  · exact hfront y hy

/-- A candidate behind the first that is no better than it changes nothing. -/
theorem cons_of_le (h : IsFirstBest f b (x :: xs)) (hz : f z ≤ f x) : IsFirstBest f b (x :: z :: xs) := by
  obtain ⟨front, back, heq, hfront, hback⟩ := h
  cases front with
  | nil =>
      obtain ⟨rfl, rfl⟩ := List.cons.inj heq
      refine ⟨[], z :: xs, rfl, by simp, ?_⟩
      intro y hy
      rcases List.mem_cons.mp hy with rfl | hy
      · exact hz
      · exact hback y hy
  | cons w front =>
      obtain ⟨rfl, rfl⟩ := List.cons.inj heq
      have hx := hfront x List.mem_cons_self
      refine ⟨x :: z :: front, back, rfl, ?_, hback⟩
      intro y hy
      rcases List.mem_cons.mp hy with rfl | hy
      · exact hx
      · rcases List.mem_cons.mp hy with rfl | hy
        · exact Nat.lt_of_le_of_lt hz hx
        · exact hfront y (List.mem_cons_of_mem _ hy)

/-- The first of the best among variables in constraints comes before the others by degree, if a better candidate is
one of higher degree. -/
theorem outranks {p : Nat → Bool} (h : IsFirstBest f b ((constrained scopes).filter p))
    (hf : ∀ x ∈ (constrained scopes).filter p, f x = degree links x)
    (hy : y ∈ (constrained scopes).filter p) (hne : y ≠ b) : Outranks links scopes b y := by
  have hfb := hf b h.mem
  have hfy := hf y hy
  rcases Nat.lt_or_eq_of_le (h.le hy) with hlt | heq
  · exact .inl (by omega)
  · obtain ⟨front, back, hsplit, hfront, -⟩ := h
    rw [hsplit] at hy
    rcases List.mem_append.mp hy with hy | hy
    · exact absurd heq (Nat.ne_of_lt (hfront y hy))
    · have hy : y ∈ back := (List.mem_cons.mp hy).resolve_left hne
      have hpair : [b, y].Sublist ((constrained scopes).filter p) := by
        rw [hsplit]
        exact ((List.singleton_sublist.mpr hy).cons_cons b).trans (List.sublist_append_right ..)
      exact .inr ⟨by omega, hpair.trans List.filter_sublist⟩

end IsFirstBest

/-- The candidate that is chosen is the first of the best. -/
theorem isFirstBest_of_firstBest {f : Nat → Nat} {xs : List Nat} {b : Nat}
    (h : firstBest (fun x y => f x > f y) xs = some b) : IsFirstBest f b xs := by
  cases xs with
  | nil => cases h
  | cons x xs =>
      rw [firstBest, Option.some.injEq] at h
      subst h
      induction xs generalizing x with
      | nil => exact ⟨[], [], rfl, by simp, by simp⟩
      | cons z zs ih =>
          rw [List.foldl_cons]
          by_cases hz : f z > f x
          · rw [if_pos (decide_eq_true hz)]
            exact (ih z).cons_of_lt hz
          · rw [if_neg (by simpa using hz)]
            exact (ih x).cons_of_le (Nat.le_of_not_lt hz)

/-- There is no best candidate only if there is no candidate. -/
theorem eq_nil_of_firstBest {better : Nat → Nat → Bool} {xs : List Nat}
    (h : firstBest better xs = none) : xs = [] := by
  cases xs with
  | nil => rfl
  | cons y ys => cases h

/-- The best of those in constraints that are still open is the next by degree, if the open ones are those that have
not come by degree. -/
theorem firstBest_filter_constrained {k : Nat} {p : Nat → Bool} {f : Nat → Nat}
    (hopen : ∀ x ∈ byDegree links scopes, p x = true ↔ x ∈ (byDegree links scopes).drop k)
    (hf : ∀ x ∈ (constrained scopes).filter p, f x = degree links x) :
    firstBest (fun x y => f x > f y) ((constrained scopes).filter p) = (byDegree links scopes)[k]? := by
  have hmem : ∀ x, x ∈ (constrained scopes).filter p ↔ x ∈ (byDegree links scopes).drop k := by
    intro x
    rw [List.mem_filter, ← (byDegree_perm links scopes).mem_iff]
    constructor
    · exact fun ⟨hx, hp⟩ => (hopen x hx).mp hp
    · intro hx
      have hx' := List.mem_of_mem_drop hx
      exact ⟨hx', (hopen x hx').mpr hx⟩
  cases hbest : firstBest (fun x y => f x > f y) ((constrained scopes).filter p) with
  | none =>
      -- No candidate is left.
      have hnil := eq_nil_of_firstBest hbest
      have hdrop : (byDegree links scopes).drop k = [] :=
        List.eq_nil_iff_forall_not_mem.mpr fun x hx => by simpa [hnil] using (hmem x).mpr hx
      rw [← List.head?_drop, hdrop]
      rfl
  | some b =>
      have hfirst := isFirstBest_of_firstBest hbest
      have hbdrop := (hmem b).mp hfirst.mem
      cases hdrop : (byDegree links scopes).drop k with
      | nil => simp [hdrop] at hbdrop
      | cons m ms =>
          rw [← List.head?_drop, hdrop, List.head?_cons]
          rw [hdrop] at hbdrop
          by_cases hbm : b = m
          · rw [hbm]
          · -- Both the one chosen and the next by degree would come before the other.
            have hpairwise := (pairwise_byDegree links scopes).sublist (List.drop_sublist k _)
            rw [hdrop] at hpairwise
            have hb : b ∈ ms := (List.mem_cons.mp hbdrop).resolve_left hbm
            have hmb := (List.pairwise_cons.mp hpairwise).1 b hb
            have hm : m ∈ (constrained scopes).filter p := by simp [hmem, hdrop]
            exact absurd hmb (hfirst.outranks hf hm (Ne.symm hbm)).asymm

end Heuristic

end FiniteDomain
