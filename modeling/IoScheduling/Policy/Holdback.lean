import IoScheduling.Core.State

/-!
# Holding an entry back

Before a selected entry goes out, its file may be put to sleep for a while because a better
aggregate seems about to form. There are three reasons, asked in order. A file does not wait again
for the entry for which it waited last.
-/
namespace IoScheduling

inductive HoldReason where
  /-- The entry lies between the end of the last dispatch and the offset predicted from it. -/
  | shift
  | betterAggregation
  | predicted
  deriving DecidableEq, Repr

def holdReason? (setup : Setup) (file : String) (l : Lane) (d : Direction) (e : Entry)
    (now : Nat) : Option (HoldReason × Nat) :=
  if l.shift.known ∧ l.shift.lastEnd < e.offset ∧ e.offset ≤ l.shift.predictedOffset then
    some (.shift, setup.config.shiftWaitNs)
  else if e.count < l.tally.best ∧ l.shift.lastEnd < e.stop then
    some (.betterAggregation, setup.config.aggregationWaitNs)
  else if setup.config.tracePredict then
    (setup.predictor.bind fun predict => predict file d e now).map fun wait =>
      (.predicted, min wait setup.config.maxPredictedWaitNs)
  else none

def FileState.holdback? (f : FileState) (setup : Setup) (d : Direction) (i now : Nat) :
    Option (Entry × Nat) := do
  let e ← (f.lane d).entries[i]?
  if f.waitedSeq = some e.firstSeq then none
  else
    let (_, wait) ← holdReason? setup f.file (f.lane d) d e now
    if wait = 0 then none else some (e, wait)

def FileState.arm (f : FileState) (e : Entry) (wait now : Nat) : FileState :=
  { f with waitingUntil := some (satAdd now wait), waitedSeq := some e.firstSeq }

/-- Holds the entry at position `i` of a lane back if there is a reason, and says for how long. -/
def Core.holdBack (c : Core) (file : String) (d : Direction) (i now : Nat) : Core × Option Nat :=
  match c.index.file? file with
  | none => (c, none)
  | some f =>
    match f.holdback? c.setup d i now with
    | none => (c, none)
    | some (e, wait) =>
      ({ c with index := c.index.setFile (f.arm e wait now), ledger := c.ledger.recordWait },
        some wait)

end IoScheduling
