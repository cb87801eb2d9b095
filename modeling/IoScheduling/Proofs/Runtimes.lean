import IoScheduling.Dispatcher
import IoScheduling.Proofs.Callers

/-! # Runs of the runtime

The runtime is a dispatcher at work on a core, in a world that follows a script. Only the dispatcher
changes the active policy; neither the callers nor the policy at work does. -/
namespace IoScheduling

open Outside (Call note)

/-- A dispatcher at work on a core. -/
structure Runtime where
  dispatcher : Dispatcher
  session : Session Outside
  /-- The policy that was last taken up as the starting policy or because a caller asked for it. -/
  chosen : PolicyKind

namespace Runtime

inductive Operation where
  | call (c : Call)
  | check
  | runOnce (limit : Nat)
  | migrate (k : PolicyKind)

variable (g : Circumstances)

abbrev host : Host Outside := g.host (Outside.takeOccasion g)

theorem respects (p : Setup × PolicyKind) : (host g).Respects Outside.Same p :=
  Outside.host_respects fun _ _ => Outside.takeOccasion_twins

def start (setup : Setup) (script : List (List Call)) : Runtime :=
  let (d, s) := Dispatcher.start (host g) ⟨.start setup, .start script⟩
  ⟨d, s, setup.config.startingKind⟩

def step (r : Runtime) : Operation → Runtime
  | .call c => { r with session := c.perform g r.session }
  | .check =>
    let (d, s) := r.dispatcher.checkMigration (host g) r.session
    ⟨d, s, r.session.core.forced.getD r.chosen⟩
  | .runOnce limit =>
    let (d, result) := r.dispatcher.runOnce (host g) limit r.session
    { r with
      dispatcher := d
      session := note (.scheduled result.outcome result.finished) result.session }
  | .migrate k =>
    let (d, s) := r.dispatcher.switchTo k r.session
    { r with dispatcher := d, session := s }

def run (setup : Setup) (script : List (List Call)) (ops : List Operation) : Runtime :=
  ops.foldl (step g) (start g setup script)

end Runtime

end IoScheduling
