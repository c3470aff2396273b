import FiniteDomain.Network.Stats

/-!
# Log records

What linking, generating and solving report on their way. A record keeps its data; `message` words it. Records
of the search are indented by the depth of the assignment that they belong to.
-/

namespace FiniteDomain

/-- How much a record matters. -/
inductive Level where
  | warn
  | info
  | debug
  | trace
  deriving DecidableEq, Repr

/-- The level as it is written. -/
def Level.text : Level → String
  | warn => "WARN"
  | info => "INFO"
  | debug => "DEBUG"
  | trace => "TRACE"

/-- The two kinds of local consistency. -/
inductive Consistency where
  | node
  | arc
  deriving DecidableEq, Repr

/-- The kind in words. -/
def Consistency.text : Consistency → String
  | node => "node"
  | arc => "arc"

/-- A log record. `assigned` is the number of variables under assignment. -/
inductive Event where
  | unresolvedName (name : String)
  | generated (variableCount constraintCount : Nat)
  | constantFalse
  | searchBegun
  | finished (stats : Stats)
  /-- No value is left for a variable before the search. -/
  | initialConflict (kind : Consistency)
  /-- Values removed from a domain, before the search or after an assignment. -/
  | removed (assigned : Nat) (initial : Bool) (kind : Consistency) (values : List Value) (name : String)
  /-- A constraint left a variable without values. -/
  | emptied (name source : String)
  | choosing (assigned : Nat) (name : String) (domain : List Value)
  | assigning (assigned : Nat) (value : Value) (name : String)
  | directConflict (assigned : Nat)
  /-- No value is left for a variable after an assignment. -/
  | conflict (assigned : Nat) (kind : Consistency)
  | solutionFound (assigned : Nat) (solution : Solution)

namespace Event

/-- Two blanks for each assignment around the current one. -/
def indent (assigned : Nat) : String :=
  String.ofList (List.replicate (2 * (assigned - 1)) ' ')

/-- How much the record matters. -/
def level : Event → Level
  | unresolvedName _ => .warn
  | constantFalse | searchBegun | finished _ | initialConflict _ => .info
  | emptied _ _ => .trace
  | generated _ _ | removed _ _ _ _ _ | choosing _ _ _ | assigning _ _ _ | directConflict _
  | conflict _ _ | solutionFound _ _ => .debug

/-- The record in words. -/
def message : Event → String
  | unresolvedName name =>
      "variable '" ++ name ++ "' not recognized, it will be interpreted as a constant or function"
  | generated variableCount constraintCount =>
      "generated " ++ toString variableCount ++ " variables and " ++ toString constraintCount ++ " constraints"
  | constantFalse => "a constraint without variables is false"
  | searchBegun => "begin backtracking"
  | finished stats => stats.text
  | initialConflict kind =>
      "empty domain found while making the problem " ++ kind.text ++ " consistent"
  | removed assigned initial kind values name =>
      indent assigned ++ (if initial then "init " else "") ++ kind.text ++ ": remove ["
        ++ Value.textAll values ++ "] from the domain of " ++ name
  | emptied name source => "domain of " ++ name ++ " emptied by \"" ++ source ++ "\""
  | choosing assigned name domain =>
      indent assigned ++ "choosing variable " ++ name ++ " with domain [" ++ Value.textAll domain ++ "]"
  | assigning assigned value name =>
      indent assigned ++ "assigning " ++ value.text ++ " to " ++ name
  | directConflict assigned => indent assigned ++ "direct conflict"
  | conflict assigned kind =>
      indent assigned ++ "empty domain found by " ++ kind.text ++ " consistency"
  | solutionFound assigned solution => indent assigned ++ "solution found: " ++ solution.text

/-- The level and the words of the record. -/
def text (e : Event) : String :=
  e.level.text ++ " " ++ e.message

end Event

end FiniteDomain
