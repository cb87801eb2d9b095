import IoScheduling.Config.Basic

/-!
# Quanta

A quantum is the time for which a lane is served in one burst. How much of it was used decides how
the next one grows or shrinks.
-/
namespace IoScheduling

/-- The grant that follows `granted` when `used` of it was used, before the bounds apply. The
quotient is compared in binary64. -/
def scaledQuantum (granted used : Nat) : Nat :=
  let ratio := wordToFloat used / wordToFloat granted
  if 1.75 ≤ ratio then satMul granted 2
  else if 1.25 ≤ ratio then satAdd granted (granted / 2)
  else if 0.75 ≤ ratio then granted
  else granted / 2

def nextQuantum (granted used least greatest : Nat) : Nat :=
  let next := if granted = 0 then least else scaledQuantum granted used
  min (max next least) (max greatest least)

structure QuantumBounds where
  quantumBytes : Nat
  least : Nat
  greatest : Nat
  deriving DecidableEq, Repr

/-- A grant lasts at least as long as one quantum of bytes takes, and at most as long as a full
aggregate of quanta. -/
def QuantumBounds.of (c : Config) (time : AccessTime) : QuantumBounds :=
  let bytes := max c.aioliQuantumBytes 1
  let least := max (time bytes .read) 1
  { quantumBytes := bytes
    least := least
    greatest := max (time (satMul bytes (max c.maxAggregationSize 1)) .read) least }

end IoScheduling
