import FiniteDomain.Problem.Setup
import FiniteDomain.Problem.Statement

/-!
# Problem texts

A problem is read line by line. The first line that cannot be read is reported with its number; only when all
lines are read are the variables checked for repetitions. A file holds a problem text in UTF-8.
-/

namespace FiniteDomain

/-- Why a text is no problem. -/
inductive TextError where
  /-- The line with this number, counted from one, cannot be read. -/
  | line (number : Nat) (cause : ParseError)
  | setup (cause : SetupError)
  deriving DecidableEq

/-- The text shown for the error. -/
def TextError.message : TextError → String
  | line number cause => "line " ++ toString number ++ ": " ++ cause.message
  | setup cause => cause.message

/-- Why a file cannot be read. -/
inductive ReadFailure where
  | notFound
  | isDirectory
  | notUtf8
  /-- Any other failure, in the words of the system. -/
  | other (text : String)
  deriving DecidableEq

/-- The text shown for the failure. -/
def ReadFailure.message : ReadFailure → String
  | notFound => "No such file or directory (os error 2)"
  | isDirectory => "Is a directory (os error 21)"
  | notUtf8 => "stream did not contain valid UTF-8"
  | other text => text

/-- Why a file gives no problem. -/
inductive FileError where
  | unreadable (cause : ReadFailure)
  | text (cause : TextError)
  deriving DecidableEq

/-- The text shown for the error. -/
def FileError.message : FileError → String
  | unreadable _ => "error reading problem file"
  | text cause => cause.message

namespace Problem

/-- The statements of lines, the first of which has the given number. -/
def readLines (number : Nat) : List (List Char) → Except TextError (List Statement)
  | [] => .ok []
  | line :: lines =>
      match Statement.ofLine line with
      | .error e => .error (.line number e)
      | .ok statement? => do
          let statements ← readLines (number + 1) lines
          return statement?.toList ++ statements

/-- The problem that statements make up, in their order. -/
def ofStatements (statements : List Statement) : Problem where
  vars := statements.filterMap fun
    | .declaration v => some v
    | .constraint _ => none
  constraints := statements.filterMap fun
    | .declaration _ => none
    | .constraint c => some c

/-- The problem that a text spells. -/
def parse (s : String) : Except TextError Problem := do
  let statements ← readLines 1 (Text.lines s.toList)
  let problem := ofStatements statements
  match checkVariables problem.vars with
  | .ok () => .ok problem
  | .error e => .error (.setup e)

/-- The problem in the bytes of a file, or in what kept them from being read. -/
def ofFile (contents : Except ReadFailure ByteArray) : Except FileError Problem :=
  match contents with
  | .error e => .error (.unreadable e)
  | .ok bytes =>
      match String.fromUTF8? bytes with
      | none => .error (.unreadable .notUtf8)
      | some s =>
          match parse s with
          | .ok p => .ok p
          | .error e => .error (.text e)

end Problem

end FiniteDomain
