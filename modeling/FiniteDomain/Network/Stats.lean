import FiniteDomain.Value

/-!
# Solutions and statistics

What a solve produces: complete assignments in the order of the declarations, and counters.
-/

namespace FiniteDomain

/-- A complete assignment that satisfies every constraint, in the order of the declarations. -/
structure Solution where
  assignments : List (String × Value)
  deriving DecidableEq

namespace Solution

/-- The value of a variable. -/
def get? (s : Solution) (name : String) : Option Value :=
  (s.assignments.find? (·.1 = name)).map (·.2)

/-- The values in the order of the declarations. -/
def values (s : Solution) : List Value :=
  s.assignments.map (·.2)

/-- The number of variables. -/
def size (s : Solution) : Nat :=
  s.assignments.length

/-- The characters of one assignment. -/
def assignmentChars (a : String × Value) : List Char :=
  a.1.toList ++ [' ', '=', ' '] ++ a.2.chars

/-- The characters of the printed solution. -/
def chars (s : Solution) : List Char :=
  [';', ' '].intercalate (s.assignments.map assignmentChars)

/-- The printed solution. -/
def text (s : Solution) : String :=
  String.ofList s.chars

end Solution

/-- Counters of a solve. -/
structure Stats where
  solutions : Nat := 0
  /-- The states visited, the root among them. -/
  states : Nat := 0
  /-- The evaluations of constraints, those made for consistency among them. -/
  evaluations : Nat := 0
  deriving DecidableEq

/-- The statistics in words. -/
def Stats.text (s : Stats) : String :=
  "Number Solutions: " ++ toString s.solutions ++ "; Number States visited " ++ toString s.states
    ++ "; Number constraints evaluated " ++ toString s.evaluations

end FiniteDomain
