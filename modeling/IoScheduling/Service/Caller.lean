import IoScheduling.Host

/-!
# The caller of a scheduler

A caller works through a script, one step after another. Each step makes one turn of the
transcript: the answer, and what happened from this step to the next. The caller's code logs the
requests that it is handed and may acknowledge them. A stopped scheduler takes no more requests,
acknowledgments, withdrawals or policies, but still tells about itself.
-/
namespace IoScheduling.Service

inductive Step where
  | submit (s : Submission)
  | complete (a : Address)
  | cancel (a : Address)
  | choose (k : PolicyKind)
  | policy
  | pending
  | report
  | write (writable : Bool)
  | reset
  | stop
  /-- From now on the caller's code keeps the scheduling thread waiting. -/
  | hold
  | release
  | malformed
  deriving DecidableEq, Repr

inductive Answer where
  | done
  | ok
  | failed (fault : Fault)
  | policy (k : PolicyKind)
  | pending (requests : Nat)
  | report (r : Report)
  | written (r : Report)
  | malformed

def Answer.ofExcept : Except Fault Unit → Answer
  | .ok () => ok
  | .error fault => failed fault

inductive LogEntry where
  | handedOver (handover : Handover)
  | acknowledgmentFailed (fault : Fault)
  deriving DecidableEq, Repr

structure Turn where
  answer : Answer
  log : List LogEntry

/-- The time that passes from one reading of the clock to the next. -/
def readingTime : Nat := 5000

def patience : Nat := 10000000000

structure World where
  clock : Nat
  turnedAt : Nat
  acknowledges : Bool
  held : Bool
  script : List Step
  turns : List Turn

namespace World

def start (acknowledges : Bool) (script : List Step) : World :=
  ⟨0, 0, acknowledges, false, script, []⟩

/-- Reads the clock. A later reading shows a later time; apart from that only sleeping takes
time. -/
def readClock (w : World) : Nat × World := (w.clock, { w with clock := w.clock + readingTime })

def beginTurn (w : World) : World :=
  { w with turnedAt := w.clock, turns := ⟨.done, []⟩ :: w.turns }

def isOutOfPatience (w : World) : Bool := w.turnedAt + patience ≤ w.clock

def answer (w : World) (a : Answer) : World :=
  { w with turns := w.turns.modifyHead fun t => { t with answer := a } }

def note (w : World) (entry : LogEntry) : World :=
  { w with turns := w.turns.modifyHead fun t => { t with log := entry :: t.log } }

end World

abbrev State := Session World

def mapWorld (s : State) (f : World → World) : State := { s with world := f s.world }

def whileRunning (call : State → Except Fault Unit × State) (s : State) :
    Except Fault Unit × State :=
  if s.core.stopping then (.error .shuttingDown, s) else call s

def complete (a : Address) : State → Except Fault Unit × State :=
  whileRunning fun s =>
    let (now, world) := s.world.readClock
    let (core, answer) := s.core.complete now a
    (answer, ⟨core, world⟩)

def acknowledge (s : State) (r : Request) : State :=
  match complete r.address s with
  | (.ok (), s) => s
  | (.error fault, s) => mapWorld s (·.note (.acknowledgmentFailed fault))

def acknowledgeAll (h : Handover) (s : State) : State :=
  if s.world.acknowledges then h.requests.foldl acknowledge s else s

def receive (h : Handover) (s : State) : State := mapWorld s (·.note (.handedOver h))

/-- The host of the calls that the caller makes; such a call never sleeps. -/
def callerHost : Host World where
  clock := World.readClock
  handOver h s := acknowledgeAll h (receive h s)
  awaitRelease s := s
  awaitWork _ s := s
  busy _ _ := false
  roll w := (0, w)

def perform (step : Step) (s : State) : Answer × State :=
  match step with
  | .submit submission =>
    let (answer, s) := s.submit callerHost submission
    (.ofExcept answer, s)
  | .complete a =>
    let (answer, s) := complete a s
    (.ofExcept answer, s)
  | .cancel a =>
    let (answer, s) := whileRunning (·.cancel a) s
    (.ofExcept answer, s)
  | .choose k =>
    let (answer, s) := whileRunning (fun s => (.ok (), s.mapCore (·.force k))) s
    (.ofExcept answer, s)
  | .policy => (.policy s.core.active, s)
  | .pending => (.pending s.core.counts.requests, s)
  | .report => (.report s.core.report, s)
  | .write true => (.written s.core.report, s)
  | .write false => (.failed (.io "the file cannot be written"), s)
  | .reset => (.done, s.mapCore (·.resetStatistics))
  | .stop => (.done, mapWorld (s.mapCore (·.requestStop)) fun w => { w with held := false })
  | .hold => (.done, mapWorld s fun w => { w with held := true })
  | .release => (.done, mapWorld s fun w => { w with held := false })
  | .malformed => (.malformed, s)

def takeTurn (step : Step) (rest : List Step) (s : State) : State :=
  let (answer, s) := perform step (mapWorld s fun w => { w with script := rest }.beginTurn)
  mapWorld s (·.answer answer)

def takeNextTurn (s : State) : State :=
  match s.world.script with
  | [] => s
  | step :: rest => takeTurn step rest s

def takeTurnsOf (waiting : State → Bool) : List Step → State → State
  | [], s => s
  | step :: rest, s =>
    if waiting s then takeTurnsOf waiting rest (takeTurn step rest s) else s

def takeTurns (waiting : State → Bool) (s : State) : State := takeTurnsOf waiting s.world.script s

end IoScheduling.Service
