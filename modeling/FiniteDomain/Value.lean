import FiniteDomain.Text.Decimal
import FiniteDomain.Text.Quoted

/-!
# Values

What a variable can hold and an expression can produce: a word, a text, a truth value or a list of values.
Equality is structural and decidable (`Value.beq_iff_eq`), and a value is printed the way an expression
would write it.
-/

namespace FiniteDomain

/-- A value of the constraint language. -/
inductive Value where
  | int (n : Int64)
  | str (s : String)
  | bool (b : Bool)
  | list (items : List Value)
  deriving Inhabited

namespace Value

/-- A short name for the kind of value, for messages. -/
def kind : Value → String
  | .int _ => "int"
  | .str _ => "str"
  | .bool _ => "bool"
  | .list _ => "list"

/-- The integer of an integer value. -/
def int? : Value → Option Int64
  | .int n => some n
  | _ => none

/-- The truth value of a boolean value. -/
def bool? : Value → Option Bool
  | .bool b => some b
  | _ => none

/-! ## Equality -/

mutual
/-- Whether two values are the same. -/
def beq : Value → Value → Bool
  | .int m, .int n => m = n
  | .str s, .str t => s = t
  | .bool a, .bool b => a = b
  | .list as, .list bs => beqAll as bs
  | _, _ => false
/-- Whether two lists hold the same values in the same order. -/
def beqAll : List Value → List Value → Bool
  | [], [] => true
  | a :: as, b :: bs => beq a b && beqAll as bs
  | _, _ => false
end

mutual
/-- The comparison decides equality of values. -/
theorem beq_iff_eq : ∀ a b : Value, beq a b = true ↔ a = b
  | .int m, b => by cases b <;> simp [beq]
  | .str s, b => by cases b <;> simp [beq]
  | .bool x, b => by cases b <;> simp [beq]
  | .list as, b => by cases b <;> simp [beq, beqAll_iff_eq as]
/-- The comparison decides equality of lists of values. -/
theorem beqAll_iff_eq : ∀ as bs : List Value, beqAll as bs = true ↔ as = bs
  | [], bs => by cases bs <;> simp [beqAll]
  | a :: as, bs => by cases bs <;> simp [beqAll, beq_iff_eq a, beqAll_iff_eq as]
end

instance : DecidableEq Value := fun a b => decidable_of_iff _ (beq_iff_eq a b)

/-! ## Printed form -/

mutual
/-- The characters of the printed value. -/
def chars : Value → List Char
  | .int n => Text.decimal n.toInt
  | .str s => Text.quoted s
  | .bool true => ['T', 'r', 'u', 'e']
  | .bool false => ['F', 'a', 'l', 's', 'e']
  | .list items => '[' :: (Text.commaSeparated (charsAll items) ++ [']'])
/-- The characters of each value. -/
def charsAll : List Value → List (List Char)
  | [] => []
  | v :: vs => chars v :: charsAll vs
end

theorem charsAll_eq_map (vs : List Value) : charsAll vs = vs.map chars := by
  induction vs with
  | nil => simp [charsAll]
  | cons v vs ih => simp [charsAll, ih]

/-- The printed value. -/
def text (v : Value) : String :=
  String.ofList v.chars

/-- Printed values, a comma and a space between neighbours. -/
def textAll (vs : List Value) : String :=
  String.ofList (Text.commaSeparated (vs.map chars))

end Value

end FiniteDomain
