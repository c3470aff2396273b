/-!
# Error reports

A report has a message and the chain of its causes, the outermost first. The causes stand below the message,
indented, and numbered if there are several.
-/

namespace FiniteDomain.Command

/-- An error and its causes. -/
structure Report where
  message : String
  causes : List String := []
  deriving DecidableEq, Repr

namespace Report

/-- A text whose first line starts with `first` and whose other lines start with `other`. -/
def indented (first other s : String) : String :=
  first ++ ("\n" ++ other).intercalate (s.splitOn "\n")

/-- A number and a colon, the number filled up with blanks to five places. -/
def numeral (n : Nat) : String :=
  let digits := toString n
  String.ofList (List.replicate (5 - digits.length) ' ') ++ digits ++ ": "

/-- Causes with their numbers, the first of which is given. -/
def numbered (n : Nat) : List String → String
  | [] => ""
  | s :: rest => "\n" ++ indented (numeral n) "       " s ++ numbered (n + 1) rest

/-- The report as it is shown. -/
def text (r : Report) : String :=
  match r.causes with
  | [] => r.message
  | [s] => r.message ++ "\n\nCaused by:\n" ++ indented "    " "    " s
  | causes => r.message ++ "\n\nCaused by:" ++ numbered 0 causes

end Report

end FiniteDomain.Command
