/-!
# Checked arithmetic

Integers are 64-bit words. Each operation answers `none` when its exact result is not a word; the word is
never wrapped. Division rounds toward negative infinity and the remainder takes the sign of the divisor:
both correct the truncating division of words, and both answer `none` for the one quotient that no word
holds, the least word divided by -1.
-/

namespace FiniteDomain.Checked

/-- The word with the value `n`, if there is one. -/
def ofInt? (n : Int) : Option Int64 :=
  if Int64.minValue.toInt ≤ n ∧ n ≤ Int64.maxValue.toInt then some (Int64.ofInt n) else none

/-- The exact sum, if it is a word. -/
def add? (a b : Int64) : Option Int64 :=
  ofInt? (a.toInt + b.toInt)

/-- The exact difference, if it is a word. -/
def sub? (a b : Int64) : Option Int64 :=
  ofInt? (a.toInt - b.toInt)

/-- The exact product, if it is a word. -/
def mul? (a b : Int64) : Option Int64 :=
  ofInt? (a.toInt * b.toInt)

/-- The negative, if it is a word. -/
def neg? (a : Int64) : Option Int64 :=
  ofInt? (-a.toInt)

/-- The absolute value, if it is a word. -/
def abs? (a : Int64) : Option Int64 :=
  ofInt? a.toInt.natAbs

/-- Whether the truncating division of words has an exact quotient and remainder. -/
def divides (a b : Int64) : Bool :=
  b ≠ 0 && !(a = Int64.minValue && b = -1)

/-- The quotient rounded toward negative infinity: one below the truncated quotient if there is a remainder
and the signs differ. -/
def floorDiv? (a b : Int64) : Option Int64 :=
  if divides a b then
    let q := a / b
    some (if a % b ≠ 0 ∧ decide (a < 0) ≠ decide (b < 0) then q - 1 else q)
  else none

/-- The remainder of `floorDiv?`: the truncated remainder, moved by the divisor if it is not zero and the
signs differ. -/
def floorRem? (a b : Int64) : Option Int64 :=
  if divides a b then
    let r := a % b
    some (if r ≠ 0 ∧ decide (r < 0) ≠ decide (b < 0) then r + b else r)
  else none

/-- A word is found exactly for the integers in its range, and it has that value. -/
theorem ofInt?_eq_some_iff {n : Int} {a : Int64} : ofInt? n = some a ↔ a.toInt = n := by
  unfold ofInt?
  constructor
  · intro h
    split at h
    · next hn =>
      cases h
      have hmax : Int64.maxValue.toInt = 2 ^ 63 - 1 := by decide
      exact Int64.toInt_ofInt_of_le hn.1 (by omega)
    · cases h
  · rintro rfl
    rw [if_pos ⟨Int64.minValue_le_toInt a, Int64.toInt_le a⟩, Int64.ofInt_toInt]

end FiniteDomain.Checked
