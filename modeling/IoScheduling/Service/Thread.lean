import IoScheduling.Config.Reader
import IoScheduling.Dispatcher
import IoScheduling.Service.Caller
import IoScheduling.Service.Checksum
import IoScheduling.Service.Launch

/-!
# The scheduling thread

A launched scheduler has a thread of its own, which runs the loop of the dispatcher. The thread and
the caller take turns: the caller goes on whenever the thread waits, for work, for an
acknowledgment, or in the caller's code while that is held. So a step's effects are complete before
the next step, unless the thread is held, and what comes out does not depend on how fast either is.
Only for an entry that is held back for very long, or that can never go out, does the caller not
wait.
-/
namespace IoScheduling.Service

/-- Sleeps for a wake-up while nothing is pending; a pause between two attempts takes its time,
unless the caller has lost its patience. -/
def awaitWork (timeout : Nat) (s : State) : State :=
  if s.core.counts.requests = 0 then
    (takeTurns (!·.core.workSignal) s).mapCore fun c => { c with workSignal := false }
  else if s.core.workSignal then s.mapCore fun c => { c with workSignal := false }
  else if s.world.isOutOfPatience then takeNextTurn s
  else mapWorld s fun w => { w with clock := w.clock + timeout }

def threadHost : Host World :=
  { callerHost with
    handOver := fun h s => acknowledgeAll h (takeTurns (·.world.held) (receive h s))
    awaitRelease := takeTurns fun s => s.core.outstanding != 0 && !s.core.stopping
    awaitWork := awaitWork }

/-- Rounds that the loop may need in the course of so many steps. While entries are held back a
round lasts as long as the idle timeout, and a turn lasts no longer than the caller's patience. -/
def threadRounds (c : Config) (steps : Nat) : Nat :=
  roundLimit steps + (steps + 1) * (patience / Dispatcher.idleTimeout c + 1)

/-- A policy that goes round without end hands control back when its time is over. Then a policy
that is asked for can be taken up; if there is none, the caller goes on. -/
def passTime (s : State) : State :=
  let s := if s.core.forced.isSome then s else takeNextTurn s
  mapWorld s fun w => { w with clock := s.core.refreshDeadline w.clock }

def runThread (limit rounds : Nat) : (calls : Nat) → Dispatcher → State → State
  | 0, _, s => s
  | calls + 1, d, s =>
    let (d, s, finished) := d.loop threadHost limit rounds none s
    if finished then s else runThread limit rounds calls d (passTime s)

structure Transcript where
  first : PolicyKind
  turns : List Turn

def serve (l : Launch) (acknowledges : Bool) (steps : List Step) : Except Fault Transcript := do
  let setup ← l.setup Config.readText? fileHash
  let (d, s) := Dispatcher.start threadHost ⟨.start setup, .start acknowledges (steps ++ [.stop])⟩
  let n := steps.length
  let served := runThread (roundLimit n) (threadRounds setup.config n) (2 * (n + 2)) d s
  let finished := takeTurns (fun _ => true) served
  return ⟨s.core.active, finished.world.turns.reverse.take n⟩

end IoScheduling.Service
