import IoScheduling.Policy.Outcome

/-!
# Shortest job and shortest remaining time first

Both serve the lane with the fewest bytes expected to remain. Shortest job first serves the entries
which the lane held when it was chosen; shortest remaining time first chooses again after every
dispatch.
-/
namespace IoScheduling

namespace Shortest

structure Choice where
  score : Nat
  file : String
  direction : Direction
  entries : Nat
  deriving DecidableEq, Repr

def offer? (lane : FileState × Direction) : Option Choice :=
  let (f, d) := lane
  let l := f.lane d
  if l.entries.isEmpty then none else some ⟨l.predictedRemaining, f.file, d, l.entries.length⟩

/-- The lane with the smallest score, the first one scanned if there are several. -/
def select (x : Index) : Option Choice :=
  firstLeast Choice.score ((lanesOf x.activeFiles).filterMap offer?)

variable {ω : Type}

/-- Serves the heads of the chosen lane, at most as many as given, until the lane is empty or the
scheduler is told to stop. -/
def serve (host : Host ω) (k : PolicyKind) (choice : Choice) :
    (batch dispatched : Nat) → Session ω → Nat × Session ω
  | 0, dispatched, s => (dispatched, s)
  | batch + 1, dispatched, s =>
    match s.dispatch? host choice.file choice.direction 0 k false with
    | none => (dispatched, s)
    | some (requests, s) =>
      let s := s.deliver host requests k
      if s.core.stopping then (dispatched + 1, s)
      else serve host k choice batch (dispatched + 1) s

def loop (host : Host ω) (k : PolicyKind) (deadline : Nat) :
    (rounds dispatched : Nat) → Session ω → Scheduled ω
  | 0, dispatched, s => ⟨⟨dispatched, none⟩, s, false⟩
  | rounds + 1, dispatched, s =>
    match s.shouldYield host deadline with
    | (true, s) => ⟨⟨dispatched, none⟩, s, true⟩
    | (false, s) =>
      match select s.core.index with
      | none => ⟨⟨dispatched, none⟩, s, true⟩
      | some choice =>
        let batch := if k = .shortestRemaining then 1 else choice.entries
        let (dispatched, s) := serve host k choice batch dispatched s
        loop host k deadline rounds dispatched s

def schedule (host : Host ω) (k : PolicyKind) (limit : Nat) (s : Session ω) : Scheduled ω :=
  let (now, s) := s.now host
  loop host k (s.core.refreshDeadline now) limit 0 s

end Shortest

end IoScheduling
