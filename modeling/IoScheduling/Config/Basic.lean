import IoScheduling.Fault
import IoScheduling.Policy.Kind

/-!
# Configuration

What a scheduler can be told before it starts. A configuration that does not validate is never
fatal: its user falls back to the defaults.
-/
namespace IoScheduling

structure Config where
  /-- The policy when no starting policy is given, and the first one under a meta-policy. -/
  defaultPolicy : String
  startingPolicy : Option String
  hashBuckets : Nat
  idleTimeoutMs : Nat
  /-- A policy hands control back at least this often. -/
  refreshIntervalMs : Nat
  aioliQuantumBytes : Nat
  feedbackQuantumBytes : Nat
  maxAggregationSize : Nat
  selectPeriodMs : Nat
  minRequestsBeforeSelection : Nat
  minSelectionProbability : Nat
  performanceValidityMs : Nat
  timeWindowNs : Nat
  shiftWaitNs : Nat
  aggregationWaitNs : Nat
  maxPredictedWaitNs : Nat
  tracePredict : Bool
  accessLatencyNs : Nat
  accessNsPerByte : Float
  deriving Repr

namespace Config

def defaults : Config where
  defaultPolicy := "AIOLI"
  startingPolicy := none
  hashBuckets := 64
  idleTimeoutMs := 10
  refreshIntervalMs := 100
  aioliQuantumBytes := 8192
  feedbackQuantumBytes := 8192
  maxAggregationSize := 16
  selectPeriodMs := 1000
  minRequestsBeforeSelection := 16
  minSelectionProbability := 5
  performanceValidityMs := 60000
  timeWindowNs := 1000000
  shiftWaitNs := 1350000
  aggregationWaitNs := 900000
  maxPredictedWaitNs := 10000000
  tracePredict := false
  accessLatencyNs := 100000
  accessNsPerByte := 1.0

def policyNamed (name : String) : Except Fault PolicyKind :=
  match PolicyKind.lookup? name with
  | some k => .ok k
  | none => .error (.unknownPolicy name)

def sizeFault? (c : Config) : Option ConfigFault :=
  if c.hashBuckets = 0 then some .noBuckets
  else if c.aioliQuantumBytes = 0 ∨ c.feedbackQuantumBytes = 0 then some .noQuantum
  else if c.maxAggregationSize = 0 then some .noAggregation
  else if 100 < c.minSelectionProbability then some .probabilityNotPercentage
  else if !c.accessNsPerByte.isFinite || c.accessNsPerByte < 0.0 then some .negativeByteTime
  else none

def validate (c : Config) : Except Fault Unit := do
  if let some cause := c.sizeFault? then throw (.invalidConfiguration cause)
  let default ← policyNamed c.defaultPolicy
  if default.profile.isMeta then throw (.invalidConfiguration (.metaDefault c.defaultPolicy))
  if let some start := c.startingPolicy then discard (policyNamed start)

def accept (c : Config) : Except Fault Config := c.validate.map fun _ => c

/-- The configuration in the given bytes of a file, as `read?` reads its text, which must also
validate; `none` stands for a file that cannot be read. -/
def load (read? : String → Option Config) (bytes : Option ByteArray) : Except Fault Config :=
  match bytes.bind String.fromUTF8? with
  | none => .error (.io "the file cannot be read")
  | some text =>
    match read? text with
    | none => .error (.invalidConfiguration .unreadable)
    | some c => c.accept

def orDefaults (c : Except Fault Config) : Config :=
  match c with
  | .ok c => c
  | .error _ => defaults

def defaultKind (c : Config) : PolicyKind := (PolicyKind.lookup? c.defaultPolicy).getD .aioli

def startingKind (c : Config) : PolicyKind :=
  (c.startingPolicy.bind PolicyKind.lookup?).getD c.defaultKind

def initialKind (c : Config) : PolicyKind :=
  if c.startingKind.profile.isMeta then c.defaultKind else c.startingKind

def aggregationLimit (c : Config) (k : PolicyKind) : Nat :=
  max (min k.profile.maxAggregation c.maxAggregationSize) 1

def timelineOrder (c : Config) (k : PolicyKind) (maxStream : Nat) : TimelineOrder :=
  match k with
  | .timeOrderMerging => .fifoAggregate
  | .timeWindow => .timeWindow (max c.timeWindowNs 1) (max maxStream 1)
  | _ => .fifo

end Config

abbrev AccessTime := Nat → Direction → Nat

def linearAccessTime (latency : Nat) (nsPerByte : Float) : AccessTime := fun length _ =>
  satAdd latency (floatToWord (wordToFloat length * nsPerByte))

def Config.accessTime (c : Config) : AccessTime :=
  linearAccessTime c.accessLatencyNs c.accessNsPerByte

end IoScheduling
