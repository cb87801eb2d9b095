import IoScheduling.Core.State

/-!
# Admission, acknowledgment and withdrawal

The three calls by which callers change the state: a request is submitted, a handed-out request is
acknowledged, a pending request is withdrawn. Under the pass-through policy a submitted request is
never pending; it goes to the caller's code within the call, which is therefore left to whoever
runs the core.
-/
namespace IoScheduling

inductive Admission where
  | refused (fault : Fault)
  | queued
  | passThrough (request : Request)
  deriving DecidableEq, Repr

namespace Core

def stamp (c : Core) (now : Nat) (s : Submission) : Request where
  file := s.file
  direction := s.direction
  offset := s.offset
  length := s.length
  arrival := now
  seq := c.nextSeq
  token := s.token
  stream := min s.stream (c.setup.maxStream - 1)
  factor := 0

def enqueue (c : Core) (now : Nat) (r : Request) : Core × Placement :=
  if c.active.profile.bucketed then
    let (index, placement) := c.index.insert (.single r) (c.setup.limit c.active) now
    ({ c with index := index }, placement)
  else
    let (timeline, placement) := c.timeline.add (.single r)
    ({ c with index := c.index.noteTimelineAdd r.file 1 now, timeline := timeline }, placement)

def submit (c : Core) (now : Nat) (s : Submission) : Core × Admission :=
  if c.stopping then (c, .refused .shuttingDown)
  else
    let r := c.stamp now s
    let c := { c with nextSeq := c.nextSeq + 1 }
    if c.active = .passThrough then
      ({ c with ledger := (c.ledger.recordReceived false).recordDispatch .passThrough 1 },
        .passThrough r)
    else
      let (c, placement) := c.enqueue now r
      ({ c with ledger := c.ledger.recordReceived placement.isMerged }.signalWork, .queued)

def noteGrantRelease (c : Core) (now : Nat) (a : Address) : Core :=
  match c.index.file? a.file with
  | none => c
  | some f =>
    let f := f.modifyLane a.direction fun l => { l with grant := l.grant.noteRelease now }
    { c with index := c.index.setFile f }

/-- One synchronously dispatched request less to wait for; the last one wakes whoever waits. -/
def noteAcknowledged (c : Core) : Core :=
  { c with
    outstanding := c.outstanding - 1
    ackSignal := c.ackSignal || c.outstanding == 1 }

/-- Acknowledges a handed-out request at time `now`. The pass-through policy keeps no record of what
it hands out, so under it every acknowledgment is accepted. -/
def complete (c : Core) (now : Nat) (a : Address) : Core × Except Fault Unit :=
  match c.index.release a with
  | .ok (h, index) =>
    let c := { c with index := index }
    let c := if h.inQuantum then c.noteGrantRelease now a else c
    let c := c.noteRelease a.length
    (if h.synchronous then c.noteAcknowledged else c, .ok ())
  | .error fault =>
    if c.active = .passThrough then (c, .ok ())
    else ({ c with ledger := c.ledger.recordNotFound }, .error fault)

def dequeue (c : Core) (a : Address) : Except Fault (Request × Core) :=
  if c.active.profile.bucketed then
    (c.index.withdraw a).map fun (r, index) => (r, { c with index := index })
  else
    match c.timeline.withdraw a with
    | some (r, timeline) =>
      let index :=
        if (c.index.file? a.file).isSome then c.index.noteTimelineRemove a.file 1 else c.index
      .ok (r, { c with index := index, timeline := timeline })
    | none => .error (.notFound a)

def cancel (c : Core) (a : Address) : Core × Except Fault Unit :=
  match c.dequeue a with
  | .ok (_, c) => ({ c with ledger := c.ledger.recordCancelled }, .ok ())
  | .error fault => ({ c with ledger := c.ledger.recordNotFound }, .error fault)

end Core

end IoScheduling
