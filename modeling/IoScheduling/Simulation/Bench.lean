import IoScheduling.Dispatcher
import IoScheduling.Simulation.Clockwork

/-!
# The bench

The simulated host, and what can be run on it. Calls nest: an event can submit a request that is
handed to the device at once, and while the device works, further events fall due. The bench is
built for a number of calls, which limits both the depth of nesting and the rounds of every loop.
A policy that still goes round after so many rounds has come to a standstill: no entry can become
eligible any more, since all factors have stopped growing.
-/
namespace IoScheduling.Simulation

def perform (host : Host World) (call : Call) (s : State) : Reply × State :=
  match call with
  | .submit submission =>
    let (answer, s) := s.submit host submission
    (.ofExcept answer, s)
  | .complete a =>
    let (answer, s) := s.complete host a
    (.ofExcept answer, s)
  | .cancel a =>
    let (answer, s) := s.cancel a
    (.ofExcept answer, s)
  | .force k => (.done, s.mapCore (·.force k))
  | .reset => (.done, s.mapCore (·.resetStatistics))
  | .stop => (.done, s.mapCore (·.requestStop))
  | .plan delay name call =>
    (.done, mapWorld s (·.plan ⟨satAdd (clock s) delay, name, call⟩))
  | .malformed => (.malformed, s)

def hostOver (act : Act) (limit : Nat) : Host World where
  clock w := (w.clock, w)
  handOver := handOver act limit
  awaitRelease s := awaitRelease act limit (s.world.horizon.getD 0 + limit) s
  awaitWork := sleep act limit .work
  busy w i := w.held == some i
  roll w := (0, w)

def host : (calls : Nat) → Host World
  | 0 => hostOver (fun _ s => (.malformed, s)) 0
  | calls + 1 => hostOver (perform (host calls)) (calls + 1)

def within (ns : Nat) (run : State → α × State) (s : State) : α × State :=
  let (a, s) := run (mapWorld s fun w => { w with horizon := some (satAdd w.clock ns) })
  (a, mapWorld s fun w => { w with horizon := none })

/-- At a standstill the time runs up to the horizon, where the scheduler is stopped. -/
def standStill (s : State) : State :=
  mapWorld (s.mapCore Core.requestStop) fun w => w.moveTo (w.horizon.getD w.clock)

def settle (r : Scheduled World) : State := if r.finished then r.session else standStill r.session

def schedule (calls : Nat) (p : Policy) (s : State) : (Policy × Outcome) × State :=
  let (p, r) := p.schedule (host calls) (roundLimit calls) s
  ((p, r.outcome), settle r)

def runOnce (calls : Nat) (d : Dispatcher) (s : State) : (Dispatcher × Outcome) × State :=
  let (d, r) := d.runOnce (host calls) (roundLimit calls) s
  ((d, r.outcome), settle r)

def runLoop (calls : Nat) (d : Dispatcher) (s : State) : Dispatcher × State :=
  let rounds := s.world.horizon.getD 0 + roundLimit calls
  let (d, s, finished) := d.loop (host calls) (roundLimit calls) rounds none s
  (d, if finished then s else standStill s)

end IoScheduling.Simulation
