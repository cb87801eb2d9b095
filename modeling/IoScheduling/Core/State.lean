import IoScheduling.Config.Basic
import IoScheduling.Pending.Index
import IoScheduling.Pending.Timeline
import IoScheduling.Report.Basic

/-!
# The state of a scheduler

`Setup` is what stays fixed while a scheduler runs, `Core` what changes. Of the two indexes only
the one that the active policy works on holds pending entries. The two signals wake the scheduling
loop and whoever waits for an acknowledgment; each holds at most one wake-up.
-/
namespace IoScheduling

inductive Callbacks where
  | one
  | many
  | both
  deriving DecidableEq, Repr

inductive Handover where
  | one (request : Request)
  | many (requests : List Request)
  deriving DecidableEq, Repr

namespace Callbacks

def of? (one many : Bool) : Except Fault Callbacks :=
  match one, many with
  | true, true => .ok .both
  | true, false => .ok .one
  | false, true => .ok .many
  | false, false => .error .noCallback

/-- The calls by which the requests of one entry are handed over. -/
def handovers (c : Callbacks) (requests : List Request) : List Handover :=
  match c with
  | one => requests.map .one
  | many => [.many requests]
  | both => if 1 < requests.length then [.many requests] else requests.map .one

end Callbacks

def Handover.requests : Handover → List Request
  | .one r => [r]
  | .many rs => rs

/-- How long a better aggregate is worth waiting for: by file, direction, entry and time. -/
abbrev Predictor := String → Direction → Entry → Nat → Option Nat

structure Setup where
  config : Config
  hash : String → Nat
  callbacks : Callbacks
  maxStream : Nat
  accessTime : AccessTime
  predictor : Option Predictor

def Setup.withHash (hash : String → Nat) (config : Config) (callbacks : Callbacks)
    (maxStream : Nat) : Setup where
  config := config
  hash := hash
  callbacks := callbacks
  maxStream := max maxStream 1
  accessTime := config.accessTime
  predictor := none

namespace Setup

def limit (s : Setup) (k : PolicyKind) : Nat := s.config.aggregationLimit k

def order (s : Setup) (k : PolicyKind) : TimelineOrder := s.config.timelineOrder k s.maxStream

end Setup

structure Core where
  setup : Setup
  index : Index
  timeline : Timeline
  active : PolicyKind
  epoch : Nat
  ledger : Ledger
  nextSeq : Nat
  stopping : Bool
  workSignal : Bool
  ackSignal : Bool
  /-- Requests handed out under a synchronous policy and not yet acknowledged. -/
  outstanding : Nat
  forced : Option PolicyKind
  /-- Requests released since the last selection, and their bytes. -/
  periodRequests : Nat
  periodBytes : Nat

namespace Core

def start (setup : Setup) : Core :=
  let k := setup.config.initialKind
  { setup := setup
    index := .withHash setup.hash setup.config.hashBuckets
    timeline := Timeline.empty.configure (setup.order k) (setup.limit k)
    active := k
    epoch := 0
    ledger := .zero
    nextSeq := 0
    stopping := false
    workSignal := false
    ackSignal := false
    outstanding := 0
    forced := none
    periodRequests := 0
    periodBytes := 0 }

def config (c : Core) : Config := c.setup.config

def counts (c : Core) : PendingCounts := c.index.counts

def signalWork (c : Core) : Core := { c with workSignal := true }

def requestStop (c : Core) : Core :=
  { c with stopping := true, workSignal := true, ackSignal := true }

/-- Asks for a policy; it is taken up at the next check. -/
def force (c : Core) (k : PolicyKind) : Core := { c with forced := some k }.signalWork

def refreshDeadline (c : Core) (now : Nat) : Nat :=
  satAdd now (nsOfMs (max c.config.refreshIntervalMs 1))

def isDone (c : Core) : Bool := c.stopping || c.counts.requests == 0

def noteRelease (c : Core) (length : Nat) : Core :=
  { c with
    ledger := c.ledger.recordRelease length
    periodRequests := c.periodRequests + 1
    periodBytes := c.periodBytes + length }

def takePeriod (c : Core) : Nat × Core :=
  (wrapWord c.periodBytes, { c with periodRequests := 0, periodBytes := 0 })

def resetStatistics (c : Core) : Core :=
  { c with ledger := .zero, index := c.index.resetTallies }

def report (c : Core) : Report where
  policy := c.active.name
  pendingRequests := c.counts.requests
  pendingFiles := c.counts.files
  ledger := c.ledger.snapshot
  files := c.index.fileSnapshots

end Core

end IoScheduling
