import FiniteDomain.Command.Options
import FiniteDomain.Network.Search
import FiniteDomain.Problem.Text

/-!
# Runs of the command

A run reads its arguments, gets a problem, solves it, and prints the solutions and the statistics. Reading a
file and finding a random seed are left to the caller; all else is decided here.
-/

namespace FiniteDomain.Command

/-- How a run ends. -/
inductive Ending where
  | success
  /-- The arguments cannot be read or break the rules. -/
  | usage
  | failure (report : Report)

/-- The lines that a run prints, and how it ends. -/
structure Printout where
  lines : List String := []
  ending : Ending

/-- The causes of an error in a file. -/
def causesOf (e : FileError) : List String :=
  match e with
  | .unreadable cause => [e.message, cause.message]
  | .text (.line _ cause) => [e.message, cause.message]
  | .text (.setup (.invalidConstraint cause)) => [e.message, cause.message]
  | .text (.setup _) => [e.message]

/-- The report of an error in a file. -/
def fileReport (path : String) (e : FileError) : Report :=
  { message := "failed to read problem from \"" ++ path ++ "\"", causes := causesOf e }

/-- The report of an error in the setup. -/
def setupReport (e : SetupError) : Report :=
  match e with
  | .invalidConstraint cause => { message := e.message, causes := [cause.message] }
  | _ => { message := e.message }

/-- The report of a solve that was given up. -/
def solveReport (e : SolveError) : Report :=
  { message := e.message, causes := [e.cause.message] }

/-- Solves a problem and prints what is asked for. -/
def solve (options : Options) (problem : Problem) : Printout :=
  match Network.ofProblem problem with
  | .error e => { ending := .failure (setupReport e) }
  | .ok net =>
      let outcome := (net.configure options.config).solve
      let solutions := if options.quiet then [] else outcome.solutions.map (·.text)
      match outcome.result with
      | .ok stats => { lines := solutions ++ [stats.text], ending := .success }
      | .error e => { lines := solutions, ending := .failure (solveReport e) }

/-- Solves the problem in a file. -/
def solveFile (options : Options) (path : String) (contents : Except ReadFailure ByteArray) :
    Printout :=
  let first := "Reading problem from \"" ++ path ++ "\""
  match Problem.ofFile contents with
  | .error e => { lines := [first], ending := .failure (fileReport path e) }
  | .ok problem =>
      let out := solve options problem
      { out with lines := first :: out.lines }

/-- Runs the command on its arguments; `readFile` reads a file and `entropy` finds a seed. -/
def run {m : Type → Type} [Monad m] (readFile : String → m (Except ReadFailure ByteArray))
    (entropy : m UInt64) (args : List String) : m Printout :=
  match Arguments.read args with
  | none => pure { ending := .usage }
  | some a =>
      match Options.ofArguments a with
      | .error e => pure { ending := .failure e }
      | .ok options =>
          match options.source with
          | .file path => do return solveFile options path (← readFile path)
          | .queens n => pure (solve options (Problem.queens n))
          | .generate random seed => do
              let seed ← match seed with
                | some s => pure s
                | none => entropy
              return solve options (Problem.random random (Random.seeded seed)).1

end FiniteDomain.Command
