import IoScheduling.Policy.Holdback
import IoScheduling.Policy.Outcome

/-!
# Multi-level feedback

A scan promotes every entry that it passes and dispatches the first eligible one of each lane. Small
entries become eligible first, and large ones after a bounded number of scans. The scans go round
the buckets and skip one that somebody else holds.
-/
namespace IoScheduling

structure Feedback where
  /-- Bytes that make an entry eligible a scan. -/
  quantum : Nat
  cursor : Nat
  deriving DecidableEq, Repr

namespace Feedback

def ofConfig (c : Config) : Feedback := ⟨max c.feedbackQuantumBytes 1, 0⟩

variable {ω : Type}

structure Scan (ω : Type) where
  session : Session ω
  /-- The requests of the dispatched entries, still to be handed over. -/
  ready : List (List Request)
  wait : Option Nat

def promoteLane (quantum now : Nat) (f : FileState) (d : Direction) (c : Core) :
    Core × Option Nat :=
  let entries := (f.lane d).entries.map Entry.promote
  let f := (f.expire now).modifyLane d fun l => { l with entries := entries }
  ({ c with index := c.index.setFile f }, entries.findIdx? (·.eligible quantum))

def visit (host : Host ω) (quantum now : Nat) (scan : Scan ω) (lane : String × Direction) :
    Scan ω :=
  let (file, d) := lane
  let s := scan.session
  match s.core.index.file? file with
  | none => scan
  | some f =>
    if (f.lane d).entries.isEmpty then scan
    else
      match f.cooldown? now with
      | some left => { scan with wait := shorterWait scan.wait (some left) }
      | none =>
        match promoteLane quantum now f d s.core with
        | (core, none) => { scan with session := { s with core := core } }
        | (core, some i) =>
          match core.holdBack file d i now with
          | (core, some wait) =>
            { scan with
              session := { s with core := core }
              wait := shorterWait scan.wait (some wait) }
          | (core, none) =>
            match { s with core := core }.dispatch? host file d i .feedback false with
            | none => { scan with session := { s with core := core } }
            | some (requests, s) =>
              { scan with session := s, ready := scan.ready ++ [requests] }

def scanBucket (host : Host ω) (quantum now i : Nat) (s : Session ω) : Scan ω :=
  let b := s.core.index.bucket i
  if host.busy s.world i || b.pending == 0 then ⟨s, [], none⟩
  else
    let lanes := (lanesOf b.files).map fun (f, d) => (f.file, d)
    lanes.foldl (visit host quantum now) ⟨s, [], none⟩

/-- One round over the buckets. What a bucket gives is handed over before the next one is
scanned. -/
def round (host : Host ω) (p : Feedback) (s : Session ω) : Outcome × Session ω :=
  visitBuckets p.cursor (fun i (outcome, s) =>
    let (now, s) := Session.now host s
    let scan := scanBucket host p.quantum now i s
    let s := scan.ready.foldl (fun s requests => s.deliver host requests .feedback) scan.session
    (⟨outcome.dispatched + scan.ready.length, shorterWait outcome.wait scan.wait⟩, s)) (.zero, s)

def loop (host : Host ω) (deadline : Nat) :
    (rounds dispatched : Nat) → Feedback → Session ω → Feedback × Scheduled ω
  | 0, dispatched, p, s => (p, ⟨⟨dispatched, none⟩, s, false⟩)
  | rounds + 1, dispatched, p, s =>
    match s.shouldYield host deadline with
    | (true, s) => (p, ⟨⟨dispatched, none⟩, s, true⟩)
    | (false, s) =>
      let (outcome, s) := p.round host s
      let p := { p with cursor := (p.cursor + 1) % s.core.index.size }
      let total := dispatched + outcome.dispatched
      if outcome.dispatched = 0 ∧ outcome.wait.isSome then (p, ⟨⟨total, outcome.wait⟩, s, true⟩)
      else loop host deadline rounds total p s

def schedule (host : Host ω) (p : Feedback) (limit : Nat) (s : Session ω) :
    Feedback × Scheduled ω :=
  let (now, s) := s.now host
  loop host (s.core.refreshDeadline now) limit 0 p s

end Feedback

end IoScheduling
