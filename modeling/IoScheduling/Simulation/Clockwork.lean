import IoScheduling.Simulation.World

/-!
# How simulated time passes

Advancing the clock and sleeping run the events that fall due on the way. Running an event can hand
requests to the device, which advances the clock again; so everything here takes as a parameter how
a call is made, and a limit on the number of events that it runs.
-/
namespace IoScheduling.Simulation

abbrev State := Session World

abbrev Act := Call → State → Reply × State

def mapWorld (s : State) (f : World → World) : State := { s with world := f s.world }

def clock (s : State) : Nat := s.world.clock

def runEvent (act : Act) (e : Event) (s : State) : State :=
  let (reply, s) := act e.call (mapWorld s (·.moveTo e.due))
  mapWorld s (·.note (.event (clock s) e.name reply))

def runDue (act : Act) (time : Nat) : (limit : Nat) → State → State
  | 0, s => s
  | limit + 1, s =>
    match s.world.takeDue? time with
    | none => s
    | some (e, world) => runDue act time limit (runEvent act e { s with world := world })

def advance (act : Act) (limit ns : Nat) (s : State) : State :=
  let time := satAdd (clock s) ns
  mapWorld (runDue act time limit s) (·.moveTo time)

inductive Channel where
  | work
  | acknowledgment
  deriving DecidableEq, Repr

def Channel.isSignalled (ch : Channel) (c : Core) : Bool :=
  match ch with
  | work => c.workSignal
  | acknowledgment => c.ackSignal

def Channel.consume (ch : Channel) (c : Core) : Core :=
  match ch with
  | work => { c with workSignal := false }
  | acknowledgment => { c with ackSignal := false }

def shortestSleep : Nat := 50000

/-- The time of day of a deadline, after which the sleep ends; `none` stands for the horizon. -/
def beyond (horizon : Option Nat) (deadline : Nat) : Option Nat := horizon.filter (· < deadline)

/-- Sleeps up to `deadline`, or beyond it if that is too close. The sleep was begun for the time up
to `asked`: an event that takes longer ends it. At the horizon the scheduler is stopped. -/
def sleepUntil (act : Act) (ch : Channel) (asked : Nat) : (limit deadline : Nat) → State → State
  | 0, _, s => s
  | limit + 1, deadline, s =>
    let deadline := if deadline ≤ clock s + 1 then clock s + shortestSleep else deadline
    let last := (beyond s.world.horizon deadline).getD deadline
    match s.world.takeDue? last with
    | some (e, world) =>
      let s := runEvent act e { s with world := world }
      if ch.isSignalled s.core then s.mapCore ch.consume
      else if asked ≤ clock s then s
      else sleepUntil act ch asked limit deadline s
    | none =>
      let s := mapWorld s (·.moveTo last)
      if last < deadline then s.mapCore fun c => ch.consume c.requestStop else s

def sleep (act : Act) (limit : Nat) (ch : Channel) (timeout : Nat) (s : State) : State :=
  if ch.isSignalled s.core then s.mapCore ch.consume
  else if timeout = 0 then s
  else sleepUntil act ch (clock s + timeout) (limit + 1) (clock s + timeout) s

/-- How often the scheduler looks whether an acknowledgment has come. -/
def pollInterval : Nat := 10000000

def awaitRelease (act : Act) (limit : Nat) : (polls : Nat) → State → State
  | 0, s => s
  | polls + 1, s =>
    if s.core.outstanding = 0 ∨ s.core.stopping then s
    else awaitRelease act limit polls (sleep act limit .acknowledgment pollInterval s)

def acknowledge (r : Request) (s : State) : State :=
  match s.world.device.acknowledgment with
  | .never => s
  | .atOnce =>
    let (core, answer) := s.core.complete (clock s) r.address
    let s := { s with core := core }
    match answer with
    | .ok () => s
    | .error fault => mapWorld s (·.note (.acknowledgmentFailed (clock s) fault))
  | .after delay =>
    mapWorld s (·.plan ⟨satAdd (clock s) delay, "complete", .complete r.address⟩)

def serve (act : Act) (limit : Nat) (r : Request) (s : State) : State :=
  let device := s.world.device
  let ns := satAdd device.service (satMul device.servicePerByte r.length)
  acknowledge r (advance act limit ns s)

def handOver (act : Act) (limit : Nat) (h : Handover) (s : State) : State :=
  h.requests.foldl (fun s r => serve act limit r s)
    (mapWorld s (·.note (.handedOver (clock s) h)))

end IoScheduling.Simulation
