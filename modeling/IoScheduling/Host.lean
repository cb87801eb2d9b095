import IoScheduling.Core.Admission
import IoScheduling.Core.Dispatch
import IoScheduling.Core.Migration

/-!
# The host of a scheduler

A scheduler runs against a host: a clock, the caller's code that is handed requests and may call
back into the scheduler, a way to sleep, and a source of chance. The host keeps a world of its own,
of any type, and a session is a core together with a world. Nothing is assumed about a host; laws
that hold only for some hosts say for which.
-/
namespace IoScheduling

structure Session (ω : Type) where
  core : Core
  world : ω

structure Host (ω : Type) where
  clock : ω → Nat × ω
  handOver : Handover → Session ω → Session ω
  /-- Sleeps until no acknowledgment is outstanding or the scheduler is told to stop. -/
  awaitRelease : Session ω → Session ω
  /-- Sleeps until there is a work signal, which is consumed, or for the given time. -/
  awaitWork : Nat → Session ω → Session ω
  /-- Whether somebody else holds the bucket of the given number. -/
  busy : ω → Nat → Bool
  /-- A random number; only its remainder by 100 counts. -/
  roll : ω → Nat × ω

namespace Session

variable {ω : Type}

def now (host : Host ω) (s : Session ω) : Nat × Session ω :=
  let (now, world) := host.clock s.world
  (now, { s with world := world })

def mapCore (s : Session ω) (f : Core → Core) : Session ω := { s with core := f s.core }

def handOver (host : Host ω) (requests : List Request) (s : Session ω) : Session ω :=
  (s.core.setup.callbacks.handovers requests).foldl (fun s h => host.handOver h s) s

/-- Hands requests over. Under a synchronous policy that blocks until they are released. -/
def deliver (host : Host ω) (requests : List Request) (k : PolicyKind) (s : Session ω) :
    Session ω :=
  if requests.isEmpty then s
  else
    let s := s.handOver host requests
    if k.profile.synchronous && s.core.outstanding != 0 && !s.core.stopping then
      host.awaitRelease s
    else s

def submit (host : Host ω) (call : Submission) (s : Session ω) : Except Fault Unit × Session ω :=
  let (now, s) := s.now host
  let (core, admission) := s.core.submit now call
  let s := { s with core := core }
  match admission with
  | .refused fault => (.error fault, s)
  | .queued => (.ok (), s)
  | .passThrough r => (.ok (), (s.handOver host [r]).mapCore (·.noteRelease r.length))

def complete (host : Host ω) (a : Address) (s : Session ω) : Except Fault Unit × Session ω :=
  let (now, s) := s.now host
  let (core, answer) := s.core.complete now a
  (answer, { s with core := core })

def cancel (a : Address) (s : Session ω) : Except Fault Unit × Session ω :=
  let (core, answer) := s.core.cancel a
  (answer, { s with core := core })

def dispatch? (host : Host ω) (file : String) (d : Direction) (i : Nat) (k : PolicyKind)
    (inQuantum : Bool) (s : Session ω) : Option (List Request × Session ω) :=
  let (now, s) := s.now host
  (s.core.dispatch? now file d i k inQuantum).map fun (requests, core) =>
    (requests, { s with core := core })

def dispatchHead? (host : Host ω) (k : PolicyKind) (s : Session ω) :
    Option (List Request × Session ω) :=
  let (now, s) := s.now host
  (s.core.dispatchHead? now k).map fun (requests, core) => (requests, { s with core := core })

/-- Whether a policy has to hand control back. The clock is read only if it matters. -/
def shouldYield (host : Host ω) (deadline : Nat) (s : Session ω) : Bool × Session ω :=
  if s.core.isDone then (true, s)
  else
    let (now, s) := s.now host
    (deadline ≤ now, s)

end Session

end IoScheduling
