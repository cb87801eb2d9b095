import IoScheduling.Host

/-!
# The simulated world

Time in the simulation stands still while code runs and moves only when the device works or
somebody sleeps. Calls can be planned for a later time; they wait on an agenda.
-/
namespace IoScheduling.Simulation

inductive Call where
  | submit (s : Submission)
  | complete (a : Address)
  | cancel (a : Address)
  | force (k : PolicyKind)
  | reset
  | stop
  | plan (delay : Nat) (name : String) (call : Call)
  | malformed
  deriving DecidableEq, Repr

def Call.size : Call → Nat
  | plan _ _ call => call.size + 1
  | _ => 1

inductive Reply where
  | done
  | ok
  | failed (fault : Fault)
  | malformed
  deriving DecidableEq, Repr

def Reply.ofExcept : Except Fault Unit → Reply
  | .ok () => ok
  | .error fault => failed fault

structure Event where
  due : Nat
  name : String
  call : Call
  deriving DecidableEq, Repr

inductive Acknowledgment where
  | never
  | atOnce
  | after (delay : Nat)
  deriving DecidableEq, Repr

structure Device where
  service : Nat
  servicePerByte : Nat
  acknowledgment : Acknowledgment
  deriving DecidableEq, Repr

inductive LogEntry where
  | handedOver (time : Nat) (handover : Handover)
  | acknowledgmentFailed (time : Nat) (fault : Fault)
  | event (time : Nat) (name : String) (reply : Reply)
  deriving DecidableEq, Repr

structure World where
  clock : Nat
  /-- A sleep that would go on beyond this time ends there and stops the scheduler. -/
  horizon : Option Nat
  /-- In the order of their times; events of the same time in the order of planning. -/
  agenda : List Event
  device : Device
  held : Option Nat
  log : List LogEntry
  deriving DecidableEq, Repr

namespace World

def start (device : Device) : World := ⟨0, none, [], device, none, []⟩

def note (w : World) (entry : LogEntry) : World := { w with log := entry :: w.log }

def moveTo (w : World) (time : Nat) : World := { w with clock := max w.clock time }

def plan (w : World) (e : Event) : World :=
  { w with agenda :=
      w.agenda.takeWhile (·.due ≤ e.due) ++ e :: w.agenda.dropWhile (·.due ≤ e.due) }

def takeDue? (w : World) (time : Nat) : Option (Event × World) :=
  match w.agenda with
  | [] => none
  | e :: rest => if e.due ≤ time then some (e, { w with agenda := rest }) else none

end World

end IoScheduling.Simulation
