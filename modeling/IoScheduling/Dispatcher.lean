import IoScheduling.Adaptive.Bandit
import IoScheduling.Adaptive.Pattern
import IoScheduling.Policy.Basic

/-!
# The dispatcher

The dispatcher owns the policy at work and, if there is one, the meta-policy that changes it. Its
loop waits for work, checks whether the policy is to change, and calls the policy.
-/
namespace IoScheduling

inductive Selector where
  | bandit (state : Bandit)
  | tree (state : DecisionTree)
  deriving DecidableEq, Repr

namespace Selector

def kind : Selector → PolicyKind
  | bandit _ => .armedBandit
  | tree _ => .decisionTree

def ofKind (c : Config) (k : PolicyKind) : Selector :=
  match k with
  | .decisionTree => tree (.ofConfig c)
  | _ => bandit (.ofConfig c)

def initial : Selector → PolicyKind
  | bandit b => b.initial
  | tree t => t.initial

def next {ω : Type} (host : Host ω) (bandwidth : Bandwidth) (s : Session ω) :
    Selector → PolicyKind × Selector × Session ω
  | bandit b =>
    let (now, s) := s.now host
    let (roll, world) := host.roll s.world
    let (k, b) := b.choose bandwidth now (roll % 100)
    (k, bandit b, { s with world := world })
  | tree t =>
    let (k, t) := t.decide (.ofReport s.core.report)
    (k, tree t, s)

end Selector

structure Dispatcher where
  policy : Policy
  selector : Option Selector
  bandwidth : Bandwidth
  lastSelection : Nat

namespace Dispatcher

variable {ω : Type}

def switchTo (d : Dispatcher) (k : PolicyKind) (s : Session ω) : Dispatcher × Session ω :=
  ({ d with policy := .ofKind s.core.setup k }, s.mapCore (·.migrate k))

def ensure (d : Dispatcher) (k : PolicyKind) (s : Session ω) : Dispatcher × Session ω :=
  if k = d.policy.kind then (d, s) else d.switchTo k s

def install (host : Host ω) (d : Dispatcher) (k : PolicyKind) (s : Session ω) :
    Dispatcher × Session ω :=
  let selector := Selector.ofKind s.core.config k
  let (now, s) := s.now host
  let d := { d with selector := some selector, lastSelection := now }
  d.ensure selector.initial (s.mapCore fun c => c.takePeriod.2)

def start (host : Host ω) (s : Session ω) : Dispatcher × Session ω :=
  let config := s.core.config
  let (now, s) := s.now host
  let d : Dispatcher :=
    { policy := .ofKind s.core.setup s.core.active
      selector := none
      bandwidth := .empty (nsOfMs config.performanceValidityMs)
      lastSelection := now }
  if config.startingKind.profile.isMeta then d.install host config.startingKind s else (d, s)

/-- Takes up the policy that a caller has asked for. A meta-policy is put in charge; any other one
ends the charge of the meta-policy. -/
def takeForced (host : Host ω) (d : Dispatcher) (k : PolicyKind) (s : Session ω) :
    Dispatcher × Session ω :=
  if k.profile.isMeta then d.install host k s else { d with selector := none }.ensure k s

def isDue (d : Dispatcher) (now : Nat) (c : Core) : Bool :=
  nsOfMs c.config.selectPeriodMs ≤ now - d.lastSelection &&
    c.config.minRequestsBeforeSelection ≤ c.periodRequests

def reselect (host : Host ω) (d : Dispatcher) (selector : Selector) (now : Nat)
    (s : Session ω) : Dispatcher × Session ω :=
  let k := d.policy.kind
  let (bytes, core) := s.core.takePeriod
  let bandwidth := d.bandwidth.record k bytes (now - d.lastSelection) now
  let (k, selector, s) := selector.next host bandwidth { s with core := core }
  { d with selector := some selector, bandwidth := bandwidth, lastSelection := now }.ensure k s

/-- Changes the policy if a caller has asked for it or a new selection is due. -/
def checkMigration (host : Host ω) (d : Dispatcher) (s : Session ω) : Dispatcher × Session ω :=
  match s.core.forced with
  | some k => d.takeForced host k (s.mapCore fun c => { c with forced := none })
  | none =>
    match d.selector with
    | none => (d, s)
    | some selector =>
      let (now, s) := s.now host
      if d.isDue now s.core then d.reselect host selector now s else (d, s)

def untilSelection (host : Host ω) (d : Dispatcher) (s : Session ω) : Option Nat × Session ω :=
  if d.selector.isNone then (none, s)
  else
    let (now, s) := s.now host
    (some (satAdd d.lastSelection (nsOfMs s.core.config.selectPeriodMs) - now), s)

def runOnce (host : Host ω) (limit : Nat) (d : Dispatcher) (s : Session ω) :
    Dispatcher × Scheduled ω :=
  let (policy, result) := d.policy.schedule host limit s
  ({ d with policy := policy }, result)

/-- How long the policy is left alone when it could not dispatch anything and has named no wait. -/
def retryPause : Nat := 100000

def idleTimeout (c : Config) : Nat := max c.idleTimeoutMs 1 * 1000000

/-- Sleeps before the next call of the policy: for work if nothing is pending, otherwise for the
pause that the last call asked for. -/
def rest (host : Host ω) (d : Dispatcher) (pause : Option Nat) (s : Session ω) : Session ω :=
  let idle := idleTimeout s.core.config
  if s.core.counts.requests = 0 then
    let (left, s) := d.untilSelection host s
    host.awaitWork (match left with
      | some ns => min idle (max ns 1)
      | none => idle) s
  else
    match pause with
    | some ns => host.awaitWork (min ns idle) s
    | none => s

def pauseAfter (r : Scheduled ω) : Option Nat :=
  if r.outcome.dispatched = 0 ∧ 0 < r.session.core.counts.requests then
    some (r.outcome.wait.getD retryPause)
  else none

/-- Runs until the scheduler is told to stop, in at most `rounds` rounds. The answer says whether
it came to an end. -/
def loop (host : Host ω) (limit : Nat) :
    (rounds : Nat) → Option Nat → Dispatcher → Session ω → Dispatcher × Session ω × Bool
  | 0, _, d, s => (d, s, false)
  | rounds + 1, pause, d, s =>
    if s.core.stopping then (d, s, true)
    else
      let idle := s.core.counts.requests == 0
      let s := d.rest host pause s
      if idle && s.core.stopping then (d, s, true)
      else
        let (d, s) := d.checkMigration host s
        let (d, result) := d.runOnce host limit s
        if result.finished then
          loop host limit rounds (pauseAfter result) d result.session
        else (d, result.session, false)

end Dispatcher

end IoScheduling
