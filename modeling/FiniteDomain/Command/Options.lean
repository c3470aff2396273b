import FiniteDomain.Command.Arguments
import FiniteDomain.Command.Number
import FiniteDomain.Command.Report
import FiniteDomain.Network.Basic
import FiniteDomain.Problem.Generate

/-!
# Options

What the arguments mean: where the problem comes from, how it is solved and what is printed. The source is
read before the name of the variable order, and the settings of the generator in a fixed order; the first that
makes no sense is reported.
-/

namespace FiniteDomain.Command

/-- Where a problem comes from. -/
inductive Source where
  | file (path : String)
  | queens (n : Nat)
  /-- The random generator, with a seed if the problem is to be the same every time. -/
  | generate (options : Problem.RandomOptions) (seed : Option UInt64)

/-- The options of a run. -/
structure Options where
  source : Source
  config : Config
  /-- Whether only statistics are printed. -/
  quiet : Bool

namespace Options

/-- A number read from a text, or the report that it is none. -/
def explain {α : Type} (message : String) (result : Except NumberError α) : Except Report α :=
  result.mapError fun e => { message := message, causes := [e.message] }

/-- The number given for a generator setting, or its default. -/
def generatorNumber {α : Type} (parse : String → Except NumberError α) (name : String) (default : α)
    (value : Option String) : Except Report α :=
  match value with
  | none => .ok default
  | some s => explain ("invalid value for " ++ name ++ ": " ++ s) (parse s)

/-- The parameters of the generator. -/
def generatorOptions (a : Arguments) : Except Report Problem.RandomOptions := do
  let defaults : Problem.RandomOptions := {}
  let variableCount ← generatorNumber parseUnsigned "variables" defaults.variableCount (a.get? .variableCount)
  let domainSize ← generatorNumber parseUnsigned "domain_size" defaults.domainSize (a.get? .domainSize)
  let density ← generatorNumber parseReal "density" defaults.density (a.get? .density)
  let tightness ← generatorNumber parseReal "tightness" defaults.tightness (a.get? .tightness)
  return {
    variableCount := variableCount
    domainSize := domainSize
    density := density
    tightness := tightness }

/-- The seed of the generator. -/
def generatorSeed (a : Arguments) : Except Report (Option UInt64) :=
  match a.get? .seed with
  | none => .ok none
  | some s => do return some (UInt64.ofNat (← explain "invalid seed" (parseUnsigned s)))

/-- Where the problem comes from. -/
def sourceOf (a : Arguments) : Except Report Source :=
  match a.get? .input, a.get? .queens with
  | some path, _ => .ok (.file path)
  | none, some n => do return .queens (← explain "invalid number of queens" (parseUnsigned n))
  | none, none => do return .generate (← generatorOptions a) (← generatorSeed a)

/-- The order of variables. -/
def heuristicOf (a : Arguments) : Except Report Heuristic :=
  match a.get? .heuristic with
  | none => .ok .default
  | some name => (Heuristic.ofName name).mapError fun e => { message := e.message }

/-- The options that arguments stand for. -/
def ofArguments (a : Arguments) : Except Report Options := do
  let source ← sourceOf a
  let heuristic ← heuristicOf a
  return {
    source := source
    config := {
      initialNode := a.has .initialNode
      initialArc := a.has .initialArc
      node := a.has .node
      arc := a.has .arc
      heuristic := heuristic }
    quiet := a.has .quiet }

end Options

end FiniteDomain.Command
