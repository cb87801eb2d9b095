import IoScheduling.Policy.Outcome

/-!
# Serving in order

The timeline is kept in the order of the active policy, so the timeline policies only take its
front. The pass-through policy empties what earlier policies have left in the buckets.
-/
namespace IoScheduling

namespace InOrder

variable {ω : Type}

def loop (host : Host ω) (k : PolicyKind) (deadline : Nat) :
    (rounds dispatched : Nat) → Session ω → Scheduled ω
  | 0, dispatched, s => ⟨⟨dispatched, none⟩, s, false⟩
  | rounds + 1, dispatched, s =>
    match s.shouldYield host deadline with
    | (true, s) => ⟨⟨dispatched, none⟩, s, true⟩
    | (false, s) =>
      match s.dispatchHead? host k with
      | none => ⟨⟨dispatched, none⟩, s, true⟩
      | some (requests, s) =>
        loop host k deadline rounds (dispatched + 1) (s.deliver host requests k)

def schedule (host : Host ω) (k : PolicyKind) (limit : Nat) (s : Session ω) : Scheduled ω :=
  let (now, s) := s.now host
  loop host k (s.core.refreshDeadline now) limit 0 s

end InOrder

namespace PassThrough

variable {ω : Type}

def drainLane (host : Host ω) (file : String) (d : Direction) :
    Nat → List (List Request) × Session ω → List (List Request) × Session ω
  | 0, acc => acc
  | n + 1, (ready, s) =>
    match s.dispatch? host file d 0 .passThrough false with
    | none => (ready, s)
    | some (requests, s) => drainLane host file d n (ready ++ [requests], s)

/-- Dispatches all entries of a bucket and then hands their requests over. -/
def drainBucket (host : Host ω) (i : Nat) (s : Session ω) : Nat × Session ω :=
  let b := s.core.index.bucket i
  if b.pending = 0 then (0, s)
  else
    let (ready, s) := (lanesOf b.files).foldl (fun acc (f, d) =>
      drainLane host f.file d (f.lane d).entries.length acc) ([], s)
    (ready.length, ready.foldl (fun s requests => s.deliver host requests .passThrough) s)

def schedule (host : Host ω) (s : Session ω) : Scheduled ω :=
  let (dispatched, s) := visitBuckets 0 (fun i (n, s) =>
    let (m, s) := drainBucket host i s
    (n + m, s)) (0, s)
  ⟨⟨dispatched, none⟩, s, true⟩

end PassThrough

end IoScheduling
