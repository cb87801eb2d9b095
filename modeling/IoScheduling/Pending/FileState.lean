import IoScheduling.Pending.OffsetQueue

/-!
# The state of a file

A file has two lanes, one for reads and one for writes. A lane holds the pending entries, the
requests handed out and not yet acknowledged, and what has been learned from earlier dispatches.
Next to the lanes stand the number of the file's requests on the timeline and its cooldown.
-/
namespace IoScheduling

structure PendingCounts where
  requests : Nat
  files : Nat
  deriving DecidableEq, Repr

def PendingCounts.zero : PendingCounts := ⟨0, 0⟩

structure AggregationTally where
  aggregations : Nat
  entries : Nat
  requests : Nat
  /-- The largest recent size; every smaller dispatch takes one off. -/
  best : Nat
  last : Nat
  deriving DecidableEq, Repr

namespace AggregationTally

def zero : AggregationTally := ⟨0, 0, 0, 0, 0⟩

def record (t : AggregationTally) (count : Nat) : AggregationTally where
  aggregations := if 1 < count then t.aggregations + 1 else t.aggregations
  entries := t.entries + 1
  requests := t.requests + count
  best := if t.best ≤ count then count else t.best - 1
  last := count

def reset (t : AggregationTally) : AggregationTally :=
  { t with aggregations := 0, entries := 0, requests := 0 }

def average (t : AggregationTally) : Float :=
  if t.entries = 0 then 0.0 else wordToFloat t.requests / wordToFloat t.entries

end AggregationTally

/-- Where the last dispatch of a lane ended, and where the next request would start if the accesses
went on with the same stride. -/
structure ShiftHistory where
  known : Bool
  lastEnd : Nat
  predictedOffset : Nat
  deriving DecidableEq, Repr

def ShiftHistory.none : ShiftHistory := ⟨false, 0, 0⟩

structure Grant where
  /-- What the next grant will be; 0 before the first one. -/
  next : Nat
  granted : Nat
  /-- From the grant to the latest release of a request dispatched under it. -/
  used : Nat
  grantedAt : Nat
  deriving DecidableEq, Repr

namespace Grant

def zero : Grant := ⟨0, 0, 0, 0⟩

def noteRelease (g : Grant) (now : Nat) : Grant := { g with used := max g.used (now - g.grantedAt) }

end Grant

structure HandedOut where
  request : Request
  dispatchedAt : Nat
  inQuantum : Bool
  synchronous : Bool
  deriving DecidableEq, Repr

structure Lane where
  entries : List Entry
  handedOut : List HandedOut
  bytes : Nat
  requests : Nat
  /-- Bytes dispatched since the lane was last empty. -/
  served : Nat
  /-- Bytes dispatched in the last busy period that has ended. -/
  learned : Option Nat
  shift : ShiftHistory
  tally : AggregationTally
  grant : Grant
  deriving DecidableEq, Repr

namespace Lane

def empty : Lane := ⟨[], [], 0, 0, 0, none, .none, .zero, .zero⟩

/-- Bytes still expected in this busy period; twice what is pending if nothing has been learned. -/
def predictedRemaining (l : Lane) : Nat :=
  match l.learned with
  | some total => if l.served < total then total - l.served else satMul l.bytes 2
  | none => satMul l.bytes 2

def insert (l : Lane) (e : Entry) (limit : Nat) : Lane × Placement :=
  let (entries, placement) := OffsetQueue.insert l.entries e limit
  ({ l with entries := entries, bytes := wrapAdd l.bytes e.bytes, requests := l.requests + e.count },
    placement)

def detach? (l : Lane) (i : Nat) : Option (Entry × Lane) :=
  l.entries[i]?.map fun e => (e, { l with
    entries := l.entries.eraseIdx i
    bytes := wrapSub l.bytes e.bytes
    requests := l.requests - e.count })

def drain (l : Lane) : List Entry × Lane :=
  (l.entries, { l with entries := [], bytes := 0, requests := 0 })

/-- Enters a detached entry as dispatched. When nothing is left pending, the busy period ends and
its bytes become the next prediction. -/
def recordDispatch (l : Lane) (e : Entry) (now : Nat) (inQuantum synchronous : Bool) : Lane :=
  let served := wrapAdd l.served e.length
  { l with
    handedOut := l.handedOut ++ e.requests.map fun r => ⟨r, now, inQuantum, synchronous⟩
    tally := l.tally.record e.count
    shift := ⟨true, e.stop, satAdd e.stop (e.length / max e.count 1)⟩
    served := if l.entries.isEmpty then 0 else served
    learned := if l.entries.isEmpty then some served else l.learned }

def withdraw? (l : Lane) (a : Address) : Option (Request × Lane) :=
  (OffsetQueue.withdraw l.entries a).map fun (r, entries) =>
    (r, { l with entries := entries, bytes := wrapSub l.bytes r.length, requests := l.requests - 1 })

def release? (l : Lane) (a : Address) : Option (HandedOut × Lane) := do
  let i ← l.handedOut.findIdx? (·.request.matchesRange a)
  let h ← l.handedOut[i]?
  return (h, { l with handedOut := l.handedOut.eraseIdx i })

end Lane

structure FileState where
  file : String
  reads : Lane
  writes : Lane
  onTimeline : Nat
  waitingUntil : Option Nat
  /-- First sequence number of the entry for which the last cooldown was armed. -/
  waitedSeq : Option Nat
  firstArrival : Option Nat
  deriving DecidableEq, Repr

namespace FileState

def fresh (file : String) : FileState := ⟨file, .empty, .empty, 0, none, none, none⟩

def lane (f : FileState) : Direction → Lane
  | .read => f.reads
  | .write => f.writes

def setLane (f : FileState) (d : Direction) (l : Lane) : FileState :=
  match d with
  | .read => { f with reads := l }
  | .write => { f with writes := l }

def modifyLane (f : FileState) (d : Direction) (g : Lane → Lane) : FileState :=
  f.setLane d (g (f.lane d))

def pending (f : FileState) : Nat := f.reads.requests + f.writes.requests + f.onTimeline

def isIdle (f : FileState) : Bool := f.reads.entries.isEmpty && f.writes.entries.isEmpty

def cooldown? (f : FileState) (now : Nat) : Option Nat :=
  f.waitingUntil.bind fun deadline => if now < deadline then some (deadline - now) else none

def expire (f : FileState) (now : Nat) : FileState :=
  { f with waitingUntil := f.waitingUntil.filter (now < ·) }

def activate (f : FileState) (n now : Nat) (c : PendingCounts) : FileState × PendingCounts :=
  if f.pending = 0 then
    ({ f with firstArrival := some (f.firstArrival.getD now) }, ⟨c.requests + n, c.files + 1⟩)
  else (f, ⟨c.requests + n, c.files⟩)

def deactivate (f : FileState) (n : Nat) (c : PendingCounts) : PendingCounts :=
  ⟨c.requests - n, if f.pending = 0 then c.files - 1 else c.files⟩

def insert (f : FileState) (e : Entry) (limit now : Nat) (c : PendingCounts) :
    FileState × PendingCounts × Placement :=
  let (f, c) := f.activate e.count now c
  let (lane, placement) := (f.lane e.direction).insert e limit
  (f.setLane e.direction lane, c, placement)

def noteTimelineAdd (f : FileState) (n now : Nat) (c : PendingCounts) :
    FileState × PendingCounts :=
  let (f, c) := f.activate n now c
  ({ f with onTimeline := f.onTimeline + n }, c)

def noteTimelineRemove (f : FileState) (n : Nat) (c : PendingCounts) :
    FileState × PendingCounts :=
  let f := { f with onTimeline := f.onTimeline - n }
  (f, f.deactivate n c)

def detach? (f : FileState) (d : Direction) (i : Nat) (c : PendingCounts) :
    Option (Entry × FileState × PendingCounts) :=
  ((f.lane d).detach? i).map fun (e, lane) =>
    let f := f.setLane d lane
    (e, f, f.deactivate e.count c)

/-- Moves every pending entry out, reads first. The requests stay pending elsewhere, so no count
of pending requests changes. -/
def drain (f : FileState) : List Entry × FileState :=
  let (r, reads) := f.reads.drain
  let (w, writes) := f.writes.drain
  (r ++ w, { f with reads := reads, writes := writes })

def adopt (f : FileState) (e : Entry) (limit : Nat) : FileState × Placement :=
  let (lane, placement) := (f.lane e.direction).insert e limit
  (f.setLane e.direction lane, placement)

def recordDispatch (f : FileState) (e : Entry) (now : Nat) (inQuantum synchronous : Bool) :
    FileState :=
  f.modifyLane e.direction fun l => l.recordDispatch e now inQuantum synchronous

def withdraw? (f : FileState) (a : Address) (c : PendingCounts) :
    Option (Request × FileState × PendingCounts) :=
  ((f.lane a.direction).withdraw? a).map fun (r, lane) =>
    let f := f.setLane a.direction lane
    (r, f, f.deactivate 1 c)

def release? (f : FileState) (a : Address) : Option (HandedOut × FileState) :=
  ((f.lane a.direction).release? a).map fun (h, lane) => (h, f.setLane a.direction lane)

def resetTallies (f : FileState) : FileState :=
  { f with
    reads := { f.reads with tally := f.reads.tally.reset }
    writes := { f.writes with tally := f.writes.tally.reset } }

end FileState

structure FileSnapshot where
  file : String
  pendingReads : Nat
  pendingWrites : Nat
  onTimeline : Nat
  handedOut : Nat
  reads : AggregationTally
  writes : AggregationTally
  deriving DecidableEq, Repr

def FileState.snapshot (f : FileState) : FileSnapshot where
  file := f.file
  pendingReads := f.reads.requests
  pendingWrites := f.writes.requests
  onTimeline := f.onTimeline
  handedOut := f.reads.handedOut.length + f.writes.handedOut.length
  reads := f.reads.tally
  writes := f.writes.tally

end IoScheduling
