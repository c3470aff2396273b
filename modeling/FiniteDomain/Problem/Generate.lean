import FiniteDomain.Network.Event
import FiniteDomain.Problem.Families
import FiniteDomain.Random.Coin

/-!
# Random binary problems

Variables `X0`, `X1`, … with the domain `0`, …, `d - 1`. For each pair of variables a coin decides whether they
are constrained; if they are, a second coin decides for each pair of values whether it is forbidden. A
constraint has the form `[Xi, Xj] not in [[a, b], …]`, and one that would forbid nothing is left out.

The generator takes the two coins as actions on an arbitrary state, so what it builds is determined by the
outcomes of the throws.
-/

namespace FiniteDomain.Problem

variable {σ : Type}

/-- The items for which a coin comes up, one throw for each in order. -/
def choose {α : Type} (coin : StateM σ Bool) : List α → StateM σ (List α)
  | [] => pure []
  | a :: as => do
      let keep ← coin
      let kept ← choose coin as
      return if keep then a :: kept else kept

/-- The name of the variable with a number. -/
def generatedName (i : Nat) : String :=
  "X" ++ toString i

/-- The pairs of values, in lexicographic order. -/
def valuePairs (d : Nat) : List (Value × Value) :=
  (Value.upTo d).flatMap fun a => (Value.upTo d).map (a, ·)

/-- The variables with the names `a` and `b` take none of the forbidden pairs of values. -/
def forbidding (a b : String) (forbidden : List (Value × Value)) : Expr :=
  .binary .notMem (.list [.ident a, .ident b])
    (.list (forbidden.map fun (x, y) => .list [.literal x, .literal y]))

/-- The constraints between the pairs of names, drawn with a coin for pairs of names and one for pairs of
values. -/
def drawConstraints (constrained forbidden : StateM σ Bool) (d : Nat) :
    List (String × String) → StateM σ (List Constraint)
  | [] => pure []
  | (a, b) :: rest => do
      let drawn ← if ← constrained then choose forbidden (valuePairs d) else pure []
      let constraints ← drawConstraints constrained forbidden d rest
      return if drawn.isEmpty then constraints else .ofExpr (forbidding a b drawn) :: constraints

/-- The problem of `n` variables with `d` values each, drawn with a coin for pairs of variables and one for
pairs of values. -/
def draw (n d : Nat) (constrained forbidden : StateM σ Bool) : StateM σ Problem := do
  let names := (List.range n).map generatedName
  let constraints ← drawConstraints constrained forbidden d (pairs names)
  return {
    vars := names.map fun name => { name := name, domain := Value.upTo d }
    constraints := constraints }

/-- The parameters of a random problem. -/
structure RandomOptions where
  variableCount : Nat := 8
  domainSize : Nat := 4
  /-- The probability that a pair of variables is constrained. -/
  density : Float := 0.4
  /-- The probability that a constraint forbids a pair of values. -/
  tightness : Float := 0.3

/-- A random problem and how many numbers of the stream it used. -/
def random (options : RandomOptions) (draws : Random.Draws) : Problem × Nat :=
  draw options.variableCount options.domainSize
    (Random.throwCoin draws (Random.clamp options.density))
    (Random.throwCoin draws (Random.clamp options.tightness)) 0

/-- The record of generating a problem. -/
def generatedEvent (p : Problem) : Event :=
  .generated p.vars.length p.constraints.length

end FiniteDomain.Problem
