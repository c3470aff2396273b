import Mathlib
import FiniteDomain.Expr.Evaluation
import FiniteDomain.Proofs.Expr.Arithmetic

/-!
# Division at the limits of words

On a machine whose operations trap where they have no word as their result, only the quotient of a division is checked
before it is asked for: the remainder, the quotient less one and the remainder plus the divisor are not. They need not
be. The steps of a division never trap and come to what checked arithmetic answers (`floorDivSteps_eq`,
`floorRemSteps_eq`). So the two operators of the language overflow for the least word and -1 alone, and for all other
operands they answer the floor of the exact quotient and what it leaves of the dividend (`eval_division`).
-/

namespace FiniteDomain

namespace Checked

/-! ## A machine that traps -/

/-- Why an operation of the machine has no result. -/
inductive Trap where
  | overflow
  | divisionByZero
  deriving DecidableEq, Repr

/-- The word, or a trap if the exact result is none. -/
def orTrap : Option Int64 → Except Trap Int64
  | some n => .ok n
  | none => .error .overflow

/-- The remainder of words, which traps where the truncating division does. -/
def trappingRem (a b : Int64) : Except Trap Int64 :=
  if b = 0 then .error .divisionByZero
  else if a = Int64.minValue ∧ b = -1 then .error .overflow
  else .ok (a % b)

/-- The truncated quotient of words, if there is one. -/
def quotient? (a b : Int64) : Option Int64 :=
  if divides a b then some (a / b) else none

/-- The truncated remainder of words, if there is a quotient. -/
def remainder? (a b : Int64) : Option Int64 :=
  if divides a b then some (a % b) else none

/-- The steps of a division that rounds toward negative infinity: a checked quotient, a remainder, and the quotient less
one if there is a remainder and the signs differ. -/
def floorDivSteps (a b : Int64) : Except Trap (Option Int64) :=
  match quotient? a b with
  | none => return none
  | some q => do
      let r ← trappingRem a b
      if r ≠ 0 ∧ decide (a < 0) ≠ decide (b < 0) then return some (← orTrap (sub? q 1))
      else return some q

/-- The steps of its remainder: a checked remainder, and the sum of it and the divisor if it is not zero and the signs
differ. -/
def floorRemSteps (a b : Int64) : Except Trap (Option Int64) :=
  match remainder? a b with
  | none => return none
  | some r =>
      if r ≠ 0 ∧ decide (r < 0) ≠ decide (b < 0) then do return some (← orTrap (add? r b))
      else return some r

/-! ## No step traps -/

variable {a b : Int64}

theorem trappingRem_eq (h : divides a b = true) : trappingRem a b = .ok (a % b) := by
  obtain ⟨hzero, hleast⟩ := divides_eq_true_iff.mp h
  rw [trappingRem, if_neg hzero, if_neg hleast]

theorem sub?_eq (h : -2 ^ 63 ≤ a.toInt - b.toInt ∧ a.toInt - b.toInt < 2 ^ 63) : sub? a b = some (a - b) :=
  ofInt?_eq_some_iff.mpr (toInt_sub_of_range h)

theorem add?_eq (h : -2 ^ 63 ≤ a.toInt + b.toInt ∧ a.toInt + b.toInt < 2 ^ 63) : add? a b = some (a + b) :=
  ofInt?_eq_some_iff.mpr (toInt_add_of_range h)

theorem mod_ne_zero_iff : a % b ≠ 0 ↔ a.toInt.tmod b.toInt ≠ 0 := by
  rw [Ne, ← toInt_eq_zero_iff, Int64.toInt_mod]

/-- A division comes to its checked result without a trap. -/
theorem floorDivSteps_eq (a b : Int64) : floorDivSteps a b = .ok (floorDiv? a b) := by
  unfold floorDivSteps quotient? floorDiv?
  cases h : divides a b with
  | false => rfl
  | true =>
      by_cases hround : a % b ≠ 0 ∧ decide (a < 0) ≠ decide (b < 0)
      · have hzero := (divides_iff.mp h).1
        have hrange := tdiv_sub_one_mem_range hzero (mod_ne_zero_iff.mp hround.1)
        have hone : (1 : Int64).toInt = 1 := by decide
        rw [← toInt_div h, ← hone] at hrange
        simp only [if_true, trappingRem_eq h, bind, Except.bind, if_pos hround, sub?_eq hrange]
        rfl
      · simp only [if_true, trappingRem_eq h, bind, Except.bind, if_neg hround]
        rfl

/-- A remainder comes to its checked result without a trap. -/
theorem floorRemSteps_eq (a b : Int64) : floorRemSteps a b = .ok (floorRem? a b) := by
  unfold floorRemSteps remainder? floorRem?
  cases h : divides a b with
  | false => rfl
  | true =>
      by_cases hround : a % b ≠ 0 ∧ decide (a % b < 0) ≠ decide (b < 0)
      · have hzero := (divides_iff.mp h).1
        have hsign := decide_neg_ne_iff.mp hround.2
        rw [Int64.toInt_mod] at hsign
        have hrange := tmod_add_mem_range hzero hsign
        rw [← Int64.toInt_mod] at hrange
        simp only [if_true, if_pos hround, add?_eq hrange]
        rfl
      · simp only [if_true, if_neg hround]
        rfl

/-! ## The answers -/

/-- A quotient is answered unless it is past the greatest word. -/
theorem floorDiv?_eq_none_iff (hb : b ≠ 0) : floorDiv? a b = none ↔ a = Int64.minValue ∧ b = -1 := by
  unfold floorDiv?
  split
  · next h => simpa using (divides_eq_true_iff.mp h).2
  · next h =>
    rw [divides_eq_true_iff] at h
    simpa [hb] using h

/-- A remainder is answered exactly where a quotient is. -/
theorem floorRem?_eq_none_iff : floorRem? a b = none ↔ floorDiv? a b = none := by
  unfold floorRem? floorDiv?
  split <;> simp

/-- The floor of the exact quotient. -/
theorem floor_div_eq_fdiv {m n : Int} (hn : n ≠ 0) : ⌊(m : ℚ) / n⌋ = m.fdiv n := by
  obtain ⟨k, rfl | rfl⟩ := Int.eq_nat_or_neg n
  · rw [Int.cast_natCast, Rat.floor_intCast_div_natCast, Int.fdiv_eq_ediv_of_nonneg m (Int.natCast_nonneg k)]
  · have hneg : (m : ℚ) / (-(k : Int) : Int) = ((-m : Int) : ℚ) / k := by
      push_cast
      rw [div_neg, neg_div]
    rw [hneg, Rat.floor_intCast_div_natCast, ← Int.fdiv_eq_ediv_of_nonneg (-m) (Int.natCast_nonneg k),
      ← Int.neg_fdiv_neg, Int.neg_neg]

/-- What a quotient rounded toward negative infinity leaves of the dividend is zero or has the sign of the divisor. -/
theorem sign_fmod (m : Int) {n : Int} (hn : n ≠ 0) : m.fmod n = 0 ∨ (m.fmod n).sign = n.sign := by
  by_cases hrem : m.fmod n = 0
  · exact .inl hrem
  · right
    rcases Int.lt_or_gt_of_ne hn with hneg | hpos
    · have hflip := Int.fmod_nonneg_of_pos (-m) (show 0 < -n by omega)
      rw [Int.neg_fmod_neg] at hflip
      rw [Int.sign_eq_neg_one_of_neg hneg, Int.sign_eq_neg_one_of_neg (by omega)]
    · have hnonneg := Int.fmod_nonneg_of_pos m hpos
      rw [Int.sign_eq_one_of_pos hpos, Int.sign_eq_one_of_pos (by omega)]

/-- It is smaller than the divisor. -/
theorem natAbs_fmod_lt (m : Int) {n : Int} (hn : n ≠ 0) : (m.fmod n).natAbs < n.natAbs := by
  rcases Int.lt_or_gt_of_ne hn with hneg | hpos
  · have hflip := Int.fmod_nonneg_of_pos (-m) (show 0 < -n by omega)
    have hflip' := Int.fmod_lt_of_pos (-m) (show 0 < -n by omega)
    rw [Int.neg_fmod_neg] at hflip hflip'
    omega
  · have hnonneg := Int.fmod_nonneg_of_pos m hpos
    have hlt := Int.fmod_lt_of_pos m hpos
    omega

end Checked

namespace Expr

open Checked

variable {slots : List Value} {l r : Expr} {a b : Int64}

/-- The quotient and the remainder of two integers, the divisor not being zero. -/
theorem eval_div_rem (hl : l.eval slots = .ok (.int a)) (hr : r.eval slots = .ok (.int b)) (hb : b ≠ 0) :
    (binary .div l r).eval slots = Operand.word (floorDiv? a b) ∧
      (binary .rem l r).eval slots = Operand.word (floorRem? a b) := by
  have hzero : Value.int b ≠ .int 0 := fun h => hb (Value.int.inj h)
  constructor
  · rw [eval, hl]
    change (do BinaryOp.apply .div (.int a) (← r.eval slots)) = _
    rw [hr]
    change Operand.division _ floorDiv? (.int a) (.int b) = _
    rw [Operand.division, if_neg hzero]
    rfl
  · rw [eval, hl]
    change (do BinaryOp.apply .rem (.int a) (← r.eval slots)) = _
    rw [hr]
    change Operand.division _ floorRem? (.int a) (.int b) = _
    rw [Operand.division, if_neg hzero]
    rfl

/-- Quotient and remainder of integers, the divisor not being zero, overflow for the least word and -1 alone. Otherwise
they are the floor of the exact quotient and what it leaves of the dividend; the two make up the dividend, and the
remainder is zero or has the sign of the divisor, than which it is smaller. No step of the machine traps on the way,
for whatever words. -/
theorem eval_division (hl : l.eval slots = .ok (.int a)) (hr : r.eval slots = .ok (.int b)) (hb : b ≠ 0) :
    (a = Int64.minValue ∧ b = -1 →
      (binary .div l r).eval slots = .error .overflow ∧ (binary .rem l r).eval slots = .error .overflow) ∧
    (¬ (a = Int64.minValue ∧ b = -1) → ∃ q m : Int64,
      (binary .div l r).eval slots = .ok (.int q) ∧ (binary .rem l r).eval slots = .ok (.int m) ∧
      q.toInt = ⌊(a.toInt : ℚ) / b.toInt⌋ ∧ m.toInt = a.toInt - b.toInt * ⌊(a.toInt : ℚ) / b.toInt⌋ ∧
      a.toInt = q.toInt * b.toInt + m.toInt ∧
      (m.toInt = 0 ∨ m.toInt.sign = b.toInt.sign) ∧ m.toInt.natAbs < b.toInt.natAbs) ∧
    floorDivSteps a b = .ok (floorDiv? a b) ∧ floorRemSteps a b = .ok (floorRem? a b) := by
  obtain ⟨hdiv, hrem⟩ := eval_div_rem hl hr hb
  refine ⟨fun hleast => ?_, fun hleast => ?_, floorDivSteps_eq a b, floorRemSteps_eq a b⟩
  · have hnone := (floorDiv?_eq_none_iff hb).mpr hleast
    rw [hdiv, hrem, hnone, floorRem?_eq_none_iff.mpr hnone]
    exact ⟨rfl, rfl⟩
  · have hzero : b.toInt ≠ 0 := fun h => hb (toInt_eq_zero_iff.mp h)
    have hsome := mt (floorDiv?_eq_none_iff hb).mp hleast
    obtain ⟨q, hq⟩ := Option.ne_none_iff_exists'.mp hsome
    obtain ⟨m, hm⟩ := Option.ne_none_iff_exists'.mp (mt floorRem?_eq_none_iff.mp hsome)
    have hquotient := toInt_floorDiv? hq
    have hremainder := toInt_floorRem? hm
    have hfmod : m.toInt = a.toInt.fmod b.toInt := hremainder.trans (Int.fmod_def ..).symm
    rw [floor_div_eq_fdiv hzero, hdiv, hrem, hq, hm]
    refine ⟨q, m, rfl, rfl, hquotient, hremainder, ?_, ?_, ?_⟩
    · rw [hquotient, hfmod, Int.mul_comm]
      exact (Int.mul_fdiv_add_fmod ..).symm
    · rw [hfmod]
      exact sign_fmod a.toInt hzero
    · rw [hfmod]
      exact natAbs_fmod_lt a.toInt hzero

/-- The least word by three, which is rounded down, and by -1. -/
theorem eval_division_least :
    (binary .div (.slot 0 "A") (.slot 1 "B")).eval [.int Int64.minValue, .int 3] = .ok (.int (-3074457345618258603)) ∧
      (binary .rem (.slot 0 "A") (.slot 1 "B")).eval [.int Int64.minValue, .int 3] = .ok (.int 1) ∧
      (binary .div (.slot 0 "A") (.slot 1 "B")).eval [.int Int64.minValue, .int (-1)] = .error .overflow := by
  have hdividend (b : Int64) : (slot 0 "A").eval [.int Int64.minValue, .int b] = .ok (.int Int64.minValue) := rfl
  have hdivisor (b : Int64) : (slot 1 "B").eval [.int Int64.minValue, .int b] = .ok (.int b) := rfl
  have hthree := eval_division (hdividend 3) (hdivisor 3) (by decide)
  have hone := eval_division (hdividend (-1)) (hdivisor (-1)) (by decide)
  obtain ⟨q, m, hdiv, hrem, -, -, hsum, hsign, hsize⟩ := hthree.2.1 (by decide)
  have hmin : Int64.minValue.toInt = -9223372036854775808 := by decide
  have hword : (3 : Int64).toInt = 3 := by decide
  rw [hmin, hword] at hsum
  rw [hword, show (3 : Int).sign = 1 from rfl, Int.sign_eq_one_iff_pos] at hsign
  rw [hword] at hsize
  have hq : q.toInt = (-3074457345618258603 : Int64).toInt := by
    rw [show (-3074457345618258603 : Int64).toInt = -3074457345618258603 by decide]
    omega
  have hm : m.toInt = (1 : Int64).toInt := by
    rw [show (1 : Int64).toInt = 1 by decide]
    omega
  rw [hdiv, hrem, Int64.toInt_inj.mp hq, Int64.toInt_inj.mp hm]
  exact ⟨rfl, rfl, (hone.1 ⟨rfl, rfl⟩).1⟩

end Expr

end FiniteDomain
