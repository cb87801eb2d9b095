import IoScheduling.Policy.Holdback
import IoScheduling.Policy.Outcome
import IoScheduling.Policy.Quantum

/-!
# aIOLi: bursts of a quantum

Across all files, the lane whose eligible head is oldest is granted a quantum of time and served in
a burst: until the quantum is spent, the lane is empty, its next head is not eligible, or a head is
held back. Each closed burst sets the next grant of its lane.
-/
namespace IoScheduling

namespace Burst

structure Candidate where
  arrival : Nat
  file : String
  direction : Direction
  deriving DecidableEq, Repr

def promoteHead (l : Lane) : Lane := { l with entries := l.entries.modify 0 Entry.promote }

def isScanned (now : Nat) (f : FileState) : Bool := !f.isIdle && (f.cooldown? now).isNone

def scanFile (now : Nat) (f : FileState) : FileState :=
  if isScanned now f then
    { f.expire now with reads := promoteHead f.reads, writes := promoteHead f.writes }
  else f

def scanIndex (now : Nat) (x : Index) : Index :=
  x.mapBuckets fun b =>
    if b.pending = 0 then b else { b with files := b.files.map (scanFile now) }

def offer? (quantumBytes : Nat) (lane : FileState × Direction) : Option Candidate :=
  let (f, d) := lane
  ((f.lane d).entries.head?.filter (·.eligible quantumBytes)).map fun e =>
    ⟨e.earliestArrival, f.file, d⟩

/-- Promotes the head of every lane of the files that are not cooling down. Returns the eligible
head with the oldest arrival and the shortest cooldown met. -/
def select (quantumBytes now : Nat) (x : Index) : Option Candidate × Option Nat × Index :=
  let active := x.activeFiles
  let scanned := active.filter (isScanned now)
  let offers := (lanesOf (scanned.map (scanFile now))).filterMap (offer? quantumBytes)
  let waits := (active.filter fun f => !f.isIdle).filterMap (·.cooldown? now)
  (firstLeast Candidate.arrival offers, waits.min?, scanIndex now x)

def closeGrant (q : QuantumBounds) (l : Lane) : Lane :=
  { l with grant := { l.grant with
      next := nextQuantum l.grant.granted l.grant.used q.least q.greatest } }

def openGrant (q : QuantumBounds) (now : Nat) (l : Lane) : Lane :=
  let granted := if l.grant.next = 0 then q.least else l.grant.next
  { l with grant := { l.grant with granted := granted, used := 0, grantedAt := now } }

def modifyLane (c : Core) (k : Candidate) (g : Lane → Lane) : Core :=
  match c.index.file? k.file with
  | some f => { c with index := c.index.setFile (f.modifyLane k.direction g) }
  | none => c

inductive Turn where
  | dispatch
  | stop (wait : Option Nat)
  deriving DecidableEq, Repr

/-- Decides on the first head of a burst, which was eligible when it was selected. -/
def firstTurn (q : QuantumBounds) (k : Candidate) (now : Nat) (c : Core) : Turn × Core :=
  match c.holdBack k.file k.direction 0 now with
  | (c, some wait) => (.stop (some wait), c)
  | (c, none) => (.dispatch, modifyLane c k (openGrant q now))

/-- Decides on a later head of a burst whose estimated time so far is `consumed`. -/
def laterTurn (q : QuantumBounds) (k : Candidate) (now consumed : Nat) (l : Lane) (c : Core) :
    Turn × Core :=
  let promoted := promoteHead l
  let c := modifyLane c k fun _ => promoted
  let eligible := promoted.entries.head?.any (·.eligible q.quantumBytes)
  if l.grant.granted ≤ consumed || !eligible then (.stop none, modifyLane c k (closeGrant q))
  else
    match c.holdBack k.file k.direction 0 now with
    | (c, some wait) => (.stop (some wait), modifyLane c k (closeGrant q))
    | (c, none) => (.dispatch, c)

def turn (q : QuantumBounds) (k : Candidate) (now dispatched consumed : Nat) (c : Core) :
    Turn × Core :=
  match c.index.file? k.file with
  | none => (.stop none, c)
  | some f =>
    let l := f.lane k.direction
    if l.entries.isEmpty then
      (.stop none, if dispatched = 0 then c else modifyLane c k (closeGrant q))
    else if dispatched = 0 then firstTurn q k now c
    else laterTurn q k now consumed l c

variable {ω : Type}

def serve (host : Host ω) (q : QuantumBounds) (k : Candidate) :
    (rounds dispatched consumed : Nat) → Session ω → Scheduled ω
  | 0, dispatched, _, s => ⟨⟨dispatched, none⟩, s, false⟩
  | rounds + 1, dispatched, consumed, s =>
    if s.core.stopping then ⟨⟨dispatched, none⟩, s, true⟩
    else
      let (now, s) := s.now host
      match turn q k now dispatched consumed s.core with
      | (.stop wait, core) => ⟨⟨dispatched, wait⟩, { s with core := core }, true⟩
      | (.dispatch, core) =>
        match { s with core := core }.dispatch? host k.file k.direction 0 .aioli true with
        | none => ⟨⟨dispatched, none⟩, { s with core := core }, true⟩
        | some (requests, s) =>
          let bytes := bytesOf requests
          let consumed := satAdd consumed (s.core.setup.accessTime bytes k.direction)
          serve host q k rounds (dispatched + 1) consumed (s.deliver host requests .aioli)

/-- Selects and serves until it is time to yield, in at most `rounds` rounds. A round in which no
head is eligible still promotes every head, so that one becomes eligible in a later round. -/
def loop (host : Host ω) (q : QuantumBounds) (limit deadline : Nat) :
    (rounds dispatched : Nat) → Session ω → Scheduled ω
  | 0, dispatched, s => ⟨⟨dispatched, none⟩, s, false⟩
  | rounds + 1, dispatched, s =>
    match s.shouldYield host deadline with
    | (true, s) => ⟨⟨dispatched, none⟩, s, true⟩
    | (false, s) =>
      let (now, s) := s.now host
      match select q.quantumBytes now s.core.index with
      | (none, wait, index) =>
        let s := s.mapCore fun c => { c with index := index }
        if wait.isSome then ⟨⟨dispatched, wait⟩, s, true⟩
        else loop host q limit deadline rounds dispatched s
      | (some k, _, index) =>
        let served := serve host q k limit 0 0 (s.mapCore fun c => { c with index := index })
        let total := dispatched + served.outcome.dispatched
        if !served.finished then ⟨⟨total, none⟩, served.session, false⟩
        else if served.outcome.dispatched = 0 ∧ served.outcome.wait.isSome then
          ⟨⟨total, served.outcome.wait⟩, served.session, true⟩
        else loop host q limit deadline rounds total served.session

def schedule (host : Host ω) (q : QuantumBounds) (limit : Nat) (s : Session ω) : Scheduled ω :=
  let (now, s) := s.now host
  loop host q limit (s.core.refreshDeadline now) limit 0 s

end Burst

end IoScheduling
