import FiniteDomain.Command.Printout

/-!
# The command line

Solves a finite-domain constraint satisfaction problem from a file, the problem of n queens or a random
problem, and prints its solutions and statistics.
-/

namespace FiniteDomain.Command

/-- How the command is called. -/
def usage : String :=
  "usage: (-i PATH | -q N | -g [-n VARS] [-d DOMAIN] [--density P] [--tightness P] [--seed S])\n"
    ++ "       [--init-node] [--init-arc] [--node] [--arc] [--heuristic NAME] [--quiet]"

/-- What kept a file from being read. -/
def failureOf : IO.Error → ReadFailure
  | .noFileOrDirectory _ _ _ => .notFound
  | .inappropriateType _ 21 _ => .isDirectory
  | e => .other (toString e)

/-- The bytes of a file. -/
def readBytes (path : String) : IO (Except ReadFailure ByteArray) := do
  try
    return .ok (← IO.FS.readBinFile path)
  catch e => return .error (failureOf e)

/-- A seed from the system's random numbers. -/
def randomSeed : IO UInt64 := do
  let bytes ← IO.getRandomBytes 8
  return bytes.toUInt64LE!

end FiniteDomain.Command

open FiniteDomain.Command in
/-- Runs the command. -/
def main (args : List String) : IO UInt32 := do
  let out ← run readBytes randomSeed args
  for line in out.lines do
    IO.println line
  match out.ending with
  | .success => return 0
  | .usage =>
      IO.eprintln usage
      return 1
  | .failure report =>
      IO.eprintln ("Error: " ++ report.text)
      return 1
