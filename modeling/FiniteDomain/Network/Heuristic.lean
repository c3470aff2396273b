import FiniteDomain.Network.Assignment

/-!
# Variable orders

Which variable is assigned next. Every order answers a variable without a value as long as there is one: the
next in declaration order, the one with the fewest values left, or the one that occurs most often among the
variables without a value in the constraints. Ties go to the first, by number or by first occurrence.
-/

namespace FiniteDomain

/-- An order in which variables are assigned. -/
inductive Heuristic where
  /-- Declaration order. -/
  | static
  /-- The fewest remaining values first. -/
  | fewestValues
  /-- The most occurrences in constraints first. -/
  | mostConstrained
  deriving DecidableEq, Repr

namespace Heuristic

/-- The name by which an order is chosen. -/
def name : Heuristic → String
  | static => "none"
  | fewestValues => "mrv"
  | mostConstrained => "degree"

/-- The order that is used unless another is chosen. -/
def default : Heuristic := static

/-- Every order. -/
def all : List Heuristic := [static, fewestValues, mostConstrained]

end Heuristic

/-- Why a solver cannot be set up as asked. -/
inductive ConfigError where
  | unknownHeuristic (name : String)
  deriving DecidableEq

/-- The text shown for the error. -/
def ConfigError.message : ConfigError → String
  | unknownHeuristic name =>
      "unknown heuristic \"" ++ name ++ "\", possible values are: "
        ++ ", ".intercalate (Heuristic.all.map Heuristic.name)

namespace Heuristic

/-- The order with a name. -/
def ofName (s : String) : Except ConfigError Heuristic :=
  match all.find? (·.name = s) with
  | some h => .ok h
  | none => .error (.unknownHeuristic s)

/-! ## Choosing a variable -/

/-- The numbers of the variables without a value. -/
def unassignedNumbers (vars : List Variable) : List Nat :=
  (List.range vars.length).filter fun x => (Variables.value? vars x).isNone

/-- The first of the candidates that no other beats; `better a b` says that `a` beats `b`. -/
def firstBest (better : Nat → Nat → Bool) : List Nat → Option Nat
  | [] => none
  | x :: xs => some (xs.foldl (fun best y => if better y best then y else best) x)

/-- The number of values left for a variable. -/
def domainSize (vars : List Variable) (x : Nat) : Nat :=
  (Variables.domain vars x).length

/-- The occurrences of variables without a value in the constraints, in order. -/
def openOccurrences (constraints : List Constraint) (vars : List Variable) : List Nat :=
  constraints.flatMap (·.unassigned vars)

/-- The next variable to assign, `assigned` being the number of variables that hold a value. -/
def select (h : Heuristic) (constraints : List Constraint) (vars : List Variable)
    (assigned : Nat) : Option Nat :=
  match h with
  | static => if assigned = vars.length then none else some assigned
  | fewestValues =>
      firstBest (fun x y => domainSize vars x < domainSize vars y)
        (unassignedNumbers vars)
  | mostConstrained =>
      let occurrences := openOccurrences constraints vars
      match firstBest (fun x y => occurrences.count x > occurrences.count y) occurrences.eraseDups with
      | some x => some x
      | none => (unassignedNumbers vars).head?

end Heuristic

end FiniteDomain
