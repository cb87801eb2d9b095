import IoScheduling.Policy.Burst
import IoScheduling.Policy.Feedback
import IoScheduling.Policy.InOrder
import IoScheduling.Policy.Shortest

/-!
# Policies

A policy at work: its kind, and what it has to remember between calls. The meta-policies choose
among the others and serve nothing themselves, so pass-through stands in for them here.
-/
namespace IoScheduling

inductive Policy where
  | aioli (quantum : QuantumBounds)
  | feedback (state : Feedback)
  | shortestJob
  | shortestRemaining
  | timeOrder
  | timeOrderMerging
  | timeWindow
  | passThrough
  deriving DecidableEq, Repr

namespace Policy

def kind : Policy → PolicyKind
  | aioli _ => .aioli
  | feedback _ => .feedback
  | shortestJob => .shortestJob
  | shortestRemaining => .shortestRemaining
  | timeOrder => .timeOrder
  | timeOrderMerging => .timeOrderMerging
  | timeWindow => .timeWindow
  | passThrough => .passThrough

def ofKind (setup : Setup) : PolicyKind → Policy
  | .aioli => aioli (.of setup.config setup.accessTime)
  | .feedback => feedback (.ofConfig setup.config)
  | .shortestJob => shortestJob
  | .shortestRemaining => shortestRemaining
  | .timeOrder => timeOrder
  | .timeOrderMerging => timeOrderMerging
  | .timeWindow => timeWindow
  | .passThrough => passThrough
  | .armedBandit => passThrough
  | .decisionTree => passThrough

theorem kind_ofKind (setup : Setup) {k : PolicyKind} (h : k.profile.isMeta = false) :
    (ofKind setup k).kind = k := by
  cases k <;> first | rfl | cases h

/-- One call of a policy, with at most `limit` rounds in each of its loops. -/
def schedule {ω : Type} (host : Host ω) (limit : Nat) (p : Policy) (s : Session ω) :
    Policy × Scheduled ω :=
  match p with
  | aioli q => (p, Burst.schedule host q limit s)
  | feedback state =>
    let (state, result) := state.schedule host limit s
    (feedback state, result)
  | shortestJob => (p, Shortest.schedule host .shortestJob limit s)
  | shortestRemaining => (p, Shortest.schedule host .shortestRemaining limit s)
  | timeOrder => (p, InOrder.schedule host .timeOrder limit s)
  | timeOrderMerging => (p, InOrder.schedule host .timeOrderMerging limit s)
  | timeWindow => (p, InOrder.schedule host .timeWindow limit s)
  | passThrough => (p, PassThrough.schedule host s)

end Policy

end IoScheduling
