import IoScheduling.Proofs.Deliveries
import IoScheduling.Proofs.Runtimes

/-! # From the core to the callers

The log of a run shows each call of the callers' code. These calls are the ones that a history of the
core says were made, whatever the callers do when they are called, and no other call is due when the
runtime is at rest. So the account that a history gives of all requests is one of what the callers
have seen. -/
namespace IoScheduling

open IoScheduling.System (Steps Told)
open Outside (Call note)

namespace Outside

def Event.handover? : Event → Option Handover
  | handedOver h => some h
  | answered _ | reported _ | scheduled _ _ => none

/-- The calls of the callers' code, in the order in which they were made. -/
def handed (o : Outside) : List Handover := o.log.filterMap Event.handover?

variable {g : Circumstances} {t : System} {s : Session Outside}

theorem handed_note (e : Event) (s : Session Outside) :
    (note e s).world.handed = s.world.handed ++ e.handover?.toList := by
  unfold handed note
  cases h : e.handover? <;> simp [h]

theorem note_told (h : Told handed t s) {e : Event} (other : e.handover? = none) :
    Told handed t (note e s) := by
  have same : (note e s).world.handed = s.world.handed := by simp [handed_note, other]
  exact h.setWorld same

theorem host_logs {act : Session Outside → Session Outside}
    (each : ∀ t s, Told handed t s → Told handed t (act s)) : (g.host act).Logs handed where
  clock _ := rfl
  roll _ := rfl
  handOver call s t core made :=
    each t _ ⟨t, .refl core (made.trans (handed_note (.handedOver call) s).symm)⟩
  awaitRelease := each
  awaitWork _ := each

mutual

/-- A history can tell what a call does, the calls inside it included. -/
theorem perform_told (c : Call) {t : System} {s : Session Outside} (h : Told handed t s) :
    Told handed t (c.perform g s) := by
  cases c with
  | submit call inside =>
    have logs : (g.host (performAll g inside)).Logs handed :=
      host_logs fun _ _ => performAll_told inside
    exact note_told (logs.submit_told h call) rfl
  | complete a =>
    have logs : (g.host id).Logs handed := host_logs fun _ _ h => h
    exact note_told (logs.complete_told h a) rfl
  | cancel a => exact note_told (h.cancel a) rfl
  | force k => exact h.notice true s.core.ackSignal (some k) s.core.periodRequests s.core.periodBytes
  | reset => exact h.reset
  | report => exact note_told h rfl
  | stop => exact h.stop

theorem performAll_told (calls : List Call) {t : System} {s : Session Outside}
    (h : Told handed t s) : Told handed t (performAll g calls s) := by
  cases calls with
  | nil => exact h
  | cons c rest => exact performAll_told rest (perform_told c h)

end

theorem takeOccasion_told (t : System) (s : Session Outside) (h : Told handed t s) :
    Told handed t (takeOccasion g s) := by
  unfold takeOccasion
  split
  · exact h
  · exact performAll_told _ (h.setWorld rfl)

end Outside

namespace Runtime

variable {g : Circumstances} {setup : Setup} {t : System} {r : Runtime}

theorem logs (g : Circumstances) : (host g).Logs Outside.handed :=
  Outside.host_logs Outside.takeOccasion_told

theorem step_told (kept : t.Kept setup) (h : Told Outside.handed t r.session) (op : Operation) :
    Told Outside.handed t (r.step g op).session := by
  cases op with
  | call c => exact Outside.perform_told c h
  | check => exact Dispatcher.checkMigration_told (logs g) h
  | runOnce limit =>
    exact Outside.note_told (r.dispatcher.policy.schedule_told (logs g) kept h limit) rfl
  | migrate k => exact h.migrate k

theorem run_told (g : Circumstances) (setup : Setup) (script : List (List Call))
    (ops : List Operation) :
    Told Outside.handed (.start setup) (run g setup script ops).session := by
  have start : Told Outside.handed (.start setup) (start g setup script).session :=
    Dispatcher.start_told (logs g) ⟨_, .refl rfl rfl⟩
  exact List.foldlRecOn (motive := fun r => Told Outside.handed (.start setup) r.session) ops (step g)
    start fun _ h op _ => step_told (System.kept_start setup) h op

/-- The requests that the callers' code has been given. -/
def given (r : Runtime) : List Request := r.session.world.handed.flatMap Handover.requests

/-- However a run goes on, some history of the core tells of it: the calls of the callers' code that
the log shows are those that were made, no others are due, and all requests are accounted for. -/
theorem run_conserves (g : Circumstances) (setup : Setup) (script : List (List Call))
    (ops : List Operation) :
    let r := run g setup script ops
    ∃ t, Steps (.start setup) t ∧ t.core = r.session.core ∧ t.made = r.session.world.handed ∧
      t.due = [] ∧ t.passing = [] ∧ t.Conserved setup := by
  intro r
  obtain ⟨t, tells⟩ := run_told g setup script ops
  have kept := tells.steps.kept (System.kept_start setup)
  exact ⟨t, tells.steps, tells.core, tells.made, tells.due, tells.passing, kept.conserved⟩

/-- Every accepted request is pending, or the callers' code has been given it, or it was withdrawn,
and that once. -/
theorem run_gives_once (g : Circumstances) (setup : Setup) (script : List (List Call))
    (ops : List Operation) :
    let r := run g setup script ops
    ∃ withdrawn : List Request, ∀ seq < r.session.core.nextSeq,
      times seq r.session.core.inLanes + times seq r.session.core.onTimeline +
        times seq r.given + times seq withdrawn = 1 := by
  intro r
  obtain ⟨t, steps, core, made, due, -, conserved⟩ := run_conserves g setup script ops
  have numbered := (steps.kept (System.kept_start setup)).numbered
  have given : t.given = r.given := congrArg (List.flatMap Handover.requests) made
  refine ⟨t.withdrawn, fun seq accepted => ?_⟩
  have once := conserved.given_once due seq
  rw [← numbered, core, given] at once
  exact once accepted

end Runtime

end IoScheduling
