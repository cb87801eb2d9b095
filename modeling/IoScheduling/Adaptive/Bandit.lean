import IoScheduling.Adaptive.Bandwidth
import IoScheduling.Config.Basic

/-!
# The armed bandit

The bandit tries every candidate once and then draws the next policy with a probability in
proportion to its measured bandwidth, but never below a floor.
-/
namespace IoScheduling

def nonNegative (x : Float) : Float := if x > 0.0 then x else 0.0

def largestAt (xs : List Float) : Nat :=
  match xs with
  | [] => 0
  | x :: rest =>
    (rest.zipIdx 1).foldl (fun (best : Float × Nat) (y : Float × Nat) =>
      if y.1 > best.1 then y else best) (x, 0) |>.2

def effectiveFloor (floor n : Nat) : Nat :=
  if 100 < floor * n then 100 / n else floor

/-- Percentages in proportion to the bandwidths, each at least the floor. The percent that rounding
leaves over go to the largest bandwidth. -/
def probabilities (bandwidths : List Float) (floor : Nat) : List Nat :=
  match bandwidths with
  | [] => []
  | _ :: _ =>
    let n := bandwidths.length
    let floor := effectiveFloor floor n
    let spare := 100 - floor * n
    let total := bandwidths.foldl (fun sum b => sum + nonNegative b) 0.0
    let share (b : Float) : Nat :=
      if total > 0.0 then (nonNegative b / total * wordToFloat spare).floor.toUInt32.toNat
      else spare / n
    let shares := bandwidths.map fun b => floor + share b
    shares.modify (largestAt bandwidths) (· + (100 - sumOf id shares))

structure Bandit where
  floor : Nat
  default : PolicyKind
  probabilities : List Nat
  deriving DecidableEq, Repr

namespace Bandit

def ofConfig (c : Config) : Bandit where
  floor := c.minSelectionProbability
  default := c.defaultKind
  probabilities := IoScheduling.probabilities (PolicyKind.candidates.map fun _ => 0.0)
    c.minSelectionProbability

def initial (b : Bandit) : PolicyKind :=
  if PolicyKind.candidates.contains b.default then b.default
  else PolicyKind.candidates.headD b.default

def pick (roll : Nat) : List (PolicyKind × Nat) → PolicyKind → PolicyKind
  | [], last => last
  | (k, p) :: rest, _ => if roll < p then k else pick (roll - p) rest k

def draw (b : Bandit) (roll : Nat) : PolicyKind :=
  pick roll (PolicyKind.candidates.zip b.probabilities)
    (PolicyKind.candidates.getLast?.getD b.default)

/-- The next policy: the first candidate without a measurement, or else one drawn with the help of
a roll of at most 99. -/
def choose (b : Bandit) (bandwidth : Bandwidth) (now roll : Nat) : PolicyKind × Bandit :=
  match PolicyKind.candidates.find? fun k => !bandwidth.hasMeasurement k now with
  | some untried => (untried, b)
  | none =>
    let measured := PolicyKind.candidates.map fun k => (bandwidth.measured k now).getD 0.0
    let b := { b with probabilities := IoScheduling.probabilities measured b.floor }
    (b.draw roll, b)

end Bandit

end IoScheduling
