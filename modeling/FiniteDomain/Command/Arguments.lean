/-!
# Arguments

The arguments of a command line are switches and settings. A setting takes a value, in the same argument or as
the next one. Long names follow two dashes, with the value after an equals sign; short names follow one dash
and may be run together, the last of them with its value. Equals signs before an attached value do not belong
to it. The argument `--` ends the options; nothing may stand after it, since there are no other arguments.

Nothing may be given twice, exactly one source of a problem has to be given, and the settings of the generator
only go with the generator.
-/

namespace FiniteDomain.Command

/-- Options without a value. -/
inductive Switch where
  | generate
  | initialNode
  | initialArc
  | node
  | arc
  | quiet
  deriving DecidableEq, Repr

/-- Options with a value. -/
inductive Setting where
  | input
  | queens
  | heuristic
  | variableCount
  | domainSize
  | density
  | tightness
  | seed
  deriving DecidableEq, Repr

/-- An option. -/
inductive Opt where
  | switch (s : Switch)
  | setting (s : Setting)
  deriving DecidableEq, Repr

/-- The option with a long name. -/
def Opt.ofLong? : String → Option Opt
  | "input" => some (.setting .input)
  | "queens" => some (.setting .queens)
  | "generate" => some (.switch .generate)
  | "init-node" => some (.switch .initialNode)
  | "init-arc" => some (.switch .initialArc)
  | "node" => some (.switch .node)
  | "arc" => some (.switch .arc)
  | "heuristic" => some (.setting .heuristic)
  | "quiet" => some (.switch .quiet)
  | "variables" => some (.setting .variableCount)
  | "domain-size" => some (.setting .domainSize)
  | "density" => some (.setting .density)
  | "tightness" => some (.setting .tightness)
  | "seed" => some (.setting .seed)
  | _ => none

/-- The option with a short name. -/
def Opt.ofShort? : Char → Option Opt
  | 'i' => some (.setting .input)
  | 'q' => some (.setting .queens)
  | 'g' => some (.switch .generate)
  | 'n' => some (.setting .variableCount)
  | 'd' => some (.setting .domainSize)
  | _ => none

/-- What is given on a command line. -/
structure Arguments where
  switches : List Switch := []
  settings : List (Setting × String) := []
  deriving DecidableEq, Repr

namespace Arguments

/-- The arguments with one more switch. -/
def withSwitch (s : Switch) (a : Arguments) : Arguments :=
  { a with switches := s :: a.switches }

/-- The arguments with one more setting. -/
def withSetting (s : Setting) (value : List Char) (a : Arguments) : Arguments :=
  { a with settings := (s, String.ofList value) :: a.settings }

/-- Whether a switch is given. -/
def has (a : Arguments) (s : Switch) : Bool :=
  a.switches.contains s

/-- The value given for a setting. -/
def get? (a : Arguments) (s : Setting) : Option String :=
  (a.settings.find? (·.1 = s)).map (·.2)

/-! ## Reading -/

/-- A value without the equals signs before it. -/
def attached (cs : List Char) : List Char :=
  cs.dropWhile (· = '=')

/-- What a long argument gives, and the setting that takes the next argument for its value. -/
def readLong (cs : List Char) : Option (Arguments × Option Setting) :=
  let name := cs.takeWhile (· ≠ '=')
  match Opt.ofLong? (String.ofList name), cs.dropWhile (· ≠ '=') with
  | some (.switch s), _ => some (withSwitch s {}, none)
  | some (.setting s), [] => some ({}, some s)
  | some (.setting s), value => some (withSetting s (attached value) {}, none)
  | none, _ => none

/-- What short names run together give, and the setting that takes the next argument for its value. -/
def readShorts : List Char → Option (Arguments × Option Setting)
  | [] => some ({}, none)
  | c :: cs =>
      match Opt.ofShort? c with
      | some (.switch s) =>
          match readShorts cs with
          | some (a, pending) => some (a.withSwitch s, pending)
          | none => none
      | some (.setting s) =>
          if cs.isEmpty then some ({}, some s) else some (withSetting s (attached cs) {}, none)
      | none => none

/-- What one argument gives, and the setting that takes the next argument for its value. -/
def readOption : List Char → Option (Arguments × Option Setting)
  | '-' :: '-' :: cs => readLong (cs.dropWhile (· = '-'))
  | '-' :: c :: cs => readShorts (c :: cs)
  | _ => none

/-- Whether an argument can be the value of the setting before it. -/
def isValue : List Char → Bool
  | '-' :: _ :: _ => false
  | _ => true

/-- The arguments of both. -/
def merge (a b : Arguments) : Arguments :=
  ⟨a.switches ++ b.switches, a.settings ++ b.settings⟩

/-- Reads the arguments of a command line, `pending` being a setting whose value comes next. -/
def readFrom : Option Setting → List String → Option Arguments
  | none, [] => some {}
  | some _, [] => none
  | some s, arg :: rest =>
      if isValue arg.toList then (readFrom none rest).map (withSetting s arg.toList) else none
  | none, arg :: rest =>
      if arg = "--" then (if rest.isEmpty then some {} else none)
      else
        match readOption arg.toList with
        | some (a, pending) => (readFrom pending rest).map a.merge
        | none => none

/-! ## Rules -/

/-- The number of sources given. -/
def sourceCount (a : Arguments) : Nat :=
  (if (a.get? .input).isSome then 1 else 0) + (if (a.get? .queens).isSome then 1 else 0)
    + (if a.has .generate then 1 else 0)

/-- The settings that only go with the generator. -/
def generatorSettings : List Setting :=
  [.variableCount, .domainSize, .density, .tightness, .seed]

/-- Whether the arguments follow the rules. -/
def isAllowed (a : Arguments) : Bool :=
  a.switches.Nodup && (a.settings.map (·.1)).Nodup && a.sourceCount = 1
    && (a.has .generate || generatorSettings.all fun s => (a.get? s).isNone)

/-- The arguments of a command line, if they can be read and follow the rules. -/
def read (args : List String) : Option Arguments :=
  match readFrom none args with
  | some a => if a.isAllowed then some a else none
  | none => none

end Arguments

end FiniteDomain.Command
