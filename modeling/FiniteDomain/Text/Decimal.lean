/-!
# Decimal text of integers and separated lists
-/

namespace FiniteDomain.Text

/-- The decimal digits of `n`, after a minus sign if it is negative. -/
def decimal (n : Int) : List Char :=
  if n < 0 then '-' :: Nat.toDigits 10 n.natAbs else Nat.toDigits 10 n.natAbs

/-- The texts in order, a comma and a space between neighbours. -/
def commaSeparated (texts : List (List Char)) : List Char :=
  [',', ' '].intercalate texts

@[simp] theorem commaSeparated_nil : commaSeparated [] = [] := rfl

@[simp] theorem commaSeparated_singleton (t : List Char) : commaSeparated [t] = t := by
  simp [commaSeparated]

end FiniteDomain.Text
