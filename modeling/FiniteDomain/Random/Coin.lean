import FiniteDomain.Random.KeyStream

/-!
# Coins

A coin that comes up with a given probability, thrown with the numbers of a stream. The state of a throw is
the number of numbers used so far; a certain outcome uses none.
-/

namespace FiniteDomain.Random

/-- A probability within the limits 0 and 1; what is no number counts as 0. -/
def clamp (p : Float) : Float :=
  if p > 0 then (if p < 1 then p else 1) else 0

/-- The bound below which a number of the stream means success, for a probability below 1. -/
def threshold (p : Float) : UInt64 :=
  (p * 18446744073709551616.0).toUInt64

/-- One throw of a coin that succeeds with the probability `p`. -/
def throwCoin (draws : Draws) (p : Float) : StateM Nat Bool := fun used =>
  if p == 1 then (true, used) else (decide (draws used < threshold p), used + 1)

end FiniteDomain.Random
