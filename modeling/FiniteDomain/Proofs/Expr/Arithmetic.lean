import Mathlib
import FiniteDomain.Checked

/-!
# Checked arithmetic is exact

A word that checked arithmetic answers is the exact result over the integers, for division and remainder the quotient
rounded toward negative infinity and what it leaves of the dividend (`toInt_floorDiv?`, `toInt_floorRem?`). The words
divide by truncation, so the two are corrected; no step of the correction leaves the words.
-/

namespace FiniteDomain.Checked

variable {a b c : Int64}

theorem toInt_add? (h : add? a b = some c) : c.toInt = a.toInt + b.toInt :=
  ofInt?_eq_some_iff.mp h

theorem toInt_sub? (h : sub? a b = some c) : c.toInt = a.toInt - b.toInt :=
  ofInt?_eq_some_iff.mp h

theorem toInt_mul? (h : mul? a b = some c) : c.toInt = a.toInt * b.toInt :=
  ofInt?_eq_some_iff.mp h

theorem toInt_neg? (h : neg? a = some c) : c.toInt = -a.toInt :=
  ofInt?_eq_some_iff.mp h

theorem toInt_abs? (h : abs? a = some c) : c.toInt = a.toInt.natAbs :=
  ofInt?_eq_some_iff.mp h

/-! ## Division of words -/

theorem toInt_minValue : Int64.minValue.toInt = -2 ^ 63 := by
  decide

/-- The range of words. -/
theorem toInt_mem_range (a : Int64) : -2 ^ 63 ≤ a.toInt ∧ a.toInt < 2 ^ 63 :=
  ⟨Int64.le_toInt a, Int64.toInt_lt a⟩

theorem toInt_eq_zero_iff : a.toInt = 0 ↔ a = 0 := by
  rw [← Int64.toInt_inj, Int64.toInt_zero]

theorem toInt_sub_of_range (h : -2 ^ 63 ≤ a.toInt - b.toInt ∧ a.toInt - b.toInt < 2 ^ 63) :
    (a - b).toInt = a.toInt - b.toInt := by
  rw [Int64.toInt_sub]
  exact Int.bmod_eq_of_le (by omega) (by omega)

theorem toInt_add_of_range (h : -2 ^ 63 ≤ a.toInt + b.toInt ∧ a.toInt + b.toInt < 2 ^ 63) :
    (a + b).toInt = a.toInt + b.toInt := by
  rw [Int64.toInt_add]
  exact Int.bmod_eq_of_le (by omega) (by omega)

/-- Words divide unless the divisor is zero or the quotient is past the greatest word. -/
theorem divides_eq_true_iff : divides a b = true ↔ b ≠ 0 ∧ ¬ (a = Int64.minValue ∧ b = -1) := by
  simp [divides, imp_iff_not_or]

theorem divides_iff : divides a b = true ↔ b.toInt ≠ 0 ∧ ¬ (a.toInt = -2 ^ 63 ∧ b.toInt = -1) := by
  have hone : (-1 : Int64).toInt = -1 := by decide
  rw [← toInt_minValue, ← hone, Int64.toInt_inj, Int64.toInt_inj, Ne, toInt_eq_zero_iff]
  exact divides_eq_true_iff

/-- A divisor that is no unit halves the dividend at least. -/
theorem natAbs_tdiv_le_half {m n : Int} (hzero : n ≠ 0) (hunit : n.natAbs ≠ 1) :
    (m.tdiv n).natAbs ≤ m.natAbs / 2 := by
  rw [Int.natAbs_tdiv]
  exact Nat.div_le_div_left (by omega) (by decide)

/-- The truncated quotient of words that divide is a word. -/
theorem tdiv_mem_range (h : divides a b = true) :
    -2 ^ 63 ≤ a.toInt.tdiv b.toInt ∧ a.toInt.tdiv b.toInt < 2 ^ 63 := by
  obtain ⟨hzero, hleast⟩ := divides_iff.mp h
  obtain ⟨hlow, hhigh⟩ := toInt_mem_range a
  by_cases hunit : b.toInt.natAbs = 1
  · have hb : b.toInt = 1 ∨ b.toInt = -1 := by omega
    rcases hb with hb | hb <;> rw [hb] at hleast ⊢
    · rw [Int.tdiv_one]
      exact ⟨hlow, hhigh⟩
    · rw [Int.tdiv_neg, Int.tdiv_one]
      omega
  · have hhalf := natAbs_tdiv_le_half (m := a.toInt) hzero hunit
    omega

theorem toInt_div (h : divides a b = true) : (a / b).toInt = a.toInt.tdiv b.toInt := by
  obtain ⟨hlow, hhigh⟩ := tdiv_mem_range h
  rw [Int64.toInt_div]
  exact Int.bmod_eq_of_le (by omega) (by omega)

/-! ## Rounding toward negative infinity -/

/-- The truncated quotient is one above the one rounded down exactly if there is a remainder and the signs differ. -/
theorem fdiv_eq_tdiv_sub {m n : Int} (hn : n ≠ 0) :
    m.fdiv n = m.tdiv n - if m.tmod n ≠ 0 ∧ ¬ (m < 0 ↔ n < 0) then 1 else 0 := by
  have hdvd : n ∣ m ↔ m.tmod n = 0 := Int.dvd_iff_tmod_eq_zero
  have hsign : n < 0 → n.sign = -1 := Int.sign_eq_neg_one_of_neg
  have hsign' : 0 < n → n.sign = 1 := Int.sign_eq_one_of_pos
  rw [Int.fdiv_eq_tdiv]
  split_ifs <;> omega

/-- A remainder has the sign of the dividend. -/
theorem tmod_neg_iff {m n : Int} (h : m.tmod n ≠ 0) : m.tmod n < 0 ↔ m < 0 := by
  rcases Int.lt_or_le m 0 with hm | hm
  · have hneg := Int.tmod_nonneg n (show 0 ≤ -m by omega)
    rw [Int.neg_tmod] at hneg
    omega
  · have hpos := Int.tmod_nonneg n hm
    omega

/-- A unit leaves no remainder. -/
theorem natAbs_ne_one_of_tmod {m n : Int} (h : m.tmod n ≠ 0) : n.natAbs ≠ 1 := by
  intro hunit
  have hn : n = 1 ∨ n = -1 := by omega
  rcases hn with rfl | rfl <;> simp at h

/-- With a remainder the divisor is no unit, so the quotient is far from the least word. -/
theorem tdiv_sub_one_mem_range (hzero : b.toInt ≠ 0) (hrem : a.toInt.tmod b.toInt ≠ 0) :
    -2 ^ 63 ≤ a.toInt.tdiv b.toInt - 1 ∧ a.toInt.tdiv b.toInt - 1 < 2 ^ 63 := by
  have hhalf := natAbs_tdiv_le_half (m := a.toInt) hzero (natAbs_ne_one_of_tmod hrem)
  have hrange := toInt_mem_range a
  omega

/-- A remainder is smaller than the divisor, so that the sum of the two is a word where their signs differ. -/
theorem tmod_add_mem_range (hzero : b.toInt ≠ 0) (hsign : ¬ (a.toInt.tmod b.toInt < 0 ↔ b.toInt < 0)) :
    -2 ^ 63 ≤ a.toInt.tmod b.toInt + b.toInt ∧ a.toInt.tmod b.toInt + b.toInt < 2 ^ 63 := by
  have hsize : (a.toInt.tmod b.toInt).natAbs < b.toInt.natAbs := by
    rw [Int.natAbs_tmod]
    exact Nat.mod_lt _ (by omega)
  have hrange := toInt_mem_range b
  omega

theorem decide_neg_ne_iff : decide (a < 0) ≠ decide (b < 0) ↔ ¬ (a.toInt < 0 ↔ b.toInt < 0) := by
  rw [Ne, decide_eq_decide, Int64.lt_iff_toInt_lt, Int64.lt_iff_toInt_lt, Int64.toInt_zero]

/-- A quotient of words is the exact one, rounded toward negative infinity. -/
theorem toInt_floorDiv? (h : floorDiv? a b = some c) : c.toInt = a.toInt.fdiv b.toInt := by
  unfold floorDiv? at h
  split at h
  · next hdivides =>
    obtain ⟨hzero, -⟩ := divides_iff.mp hdivides
    have hquotient := toInt_div hdivides
    simp only [decide_neg_ne_iff, Ne, ← toInt_eq_zero_iff, Int64.toInt_mod, Option.some.injEq] at h
    subst h
    rw [fdiv_eq_tdiv_sub hzero]
    split
    · next hround =>
      have hone : (1 : Int64).toInt = 1 := by decide
      have hrange := tdiv_sub_one_mem_range hzero hround.1
      rw [toInt_sub_of_range (by rwa [hquotient, hone]), hquotient, hone]
    · rw [hquotient, Int.sub_zero]
  · cases h

/-- A remainder of words is what the exact quotient leaves of the dividend. -/
theorem toInt_floorRem? (h : floorRem? a b = some c) :
    c.toInt = a.toInt - b.toInt * a.toInt.fdiv b.toInt := by
  unfold floorRem? at h
  split at h
  · next hdivides =>
    obtain ⟨hzero, -⟩ := divides_iff.mp hdivides
    have hrem : a.toInt.tmod b.toInt = a.toInt - b.toInt * a.toInt.tdiv b.toInt := Int.tmod_def ..
    simp only [decide_neg_ne_iff, Ne, ← toInt_eq_zero_iff, Int64.toInt_mod, Option.some.injEq] at h
    subst h
    rw [fdiv_eq_tdiv_sub hzero, Int.mul_sub]
    by_cases hround : a.toInt.tmod b.toInt ≠ 0 ∧ ¬ (a.toInt < 0 ↔ b.toInt < 0)
    · have hsign := tmod_neg_iff hround.1
      have hdiffer : ¬ (a.toInt.tmod b.toInt < 0 ↔ b.toInt < 0) := by
        rw [hsign]
        exact hround.2
      have hrange := tmod_add_mem_range hzero hdiffer
      rw [if_pos ⟨hround.1, hdiffer⟩, if_pos hround, toInt_add_of_range (by rwa [Int64.toInt_mod]), Int64.toInt_mod]
      omega
    · have hkeep : ¬ (a.toInt.tmod b.toInt ≠ 0 ∧ ¬ (a.toInt.tmod b.toInt < 0 ↔ b.toInt < 0)) := by
        rintro ⟨hne, hsign⟩
        rw [tmod_neg_iff hne] at hsign
        exact hround ⟨hne, hsign⟩
      rw [if_neg hkeep, if_neg hround, Int64.toInt_mod, hrem, Int.mul_zero, Int.sub_zero]
  · cases h

end FiniteDomain.Checked
