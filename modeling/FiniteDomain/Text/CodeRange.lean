/-!
# Sets of code points as ascending ranges

A character class of Unicode is a table of closed ranges of code points in ascending order. Looking a
code point up walks the table and stops at the first range that starts above it, so the frequent small
code points are settled within a few steps.
-/

namespace FiniteDomain.Text

/-- Whether `n` lies in one of the ascending ranges. -/
def inRanges : List (Nat × Nat) → Nat → Bool
  | [], _ => false
  | (lo, hi) :: rest, n => if n < lo then false else n ≤ hi || inRanges rest n

/-- A code point found in a table lies in one of its ranges. -/
theorem exists_of_inRanges {ranges : List (Nat × Nat)} {n : Nat} (h : inRanges ranges n = true) :
    ∃ r ∈ ranges, r.1 ≤ n ∧ n ≤ r.2 := by
  induction ranges with
  | nil => simp [inRanges] at h
  | cons r rest ih =>
      obtain ⟨lo, hi⟩ := r
      by_cases hlo : n < lo
      · simp [inRanges, hlo] at h
      · by_cases hhi : n ≤ hi
        · exact ⟨(lo, hi), List.mem_cons_self .., Nat.le_of_not_lt hlo, hhi⟩
        · have hrest : inRanges rest n = true := by simpa [inRanges, hlo, hhi] using h
          obtain ⟨s, hs, hn⟩ := ih hrest
          exact ⟨s, List.mem_cons_of_mem _ hs, hn⟩

end FiniteDomain.Text
