import IoScheduling.Dispatcher
import IoScheduling.Proofs.Starvation
import IoScheduling.Proofs.Upkeep

/-! # Every call that is due is made

A history tells which calls of the caller's code are due and which were made. In a session the host
makes them, in the middle of whatever made them due, and the caller's code may cause more of them.
When a call of the scheduler returns, all of them have been made. So what is known of the requests
that were handed out is known of those that the caller's code has got. -/
namespace IoScheduling

namespace System

/-- One step of a history: an operation, or a change of the core that concerns no request, such as a
signal, a policy asked for, or the end of a period. -/
inductive Step : System → System → Prop where
  | perform (t : System) (op : Operation) : Step t (t.perform op)
  | notice (t : System) (work ack : Bool) (forced : Option PolicyKind) (requests bytes : Nat) :
      Step t { t with core := { t.core with
        workSignal := work
        ackSignal := ack
        forced := forced
        periodRequests := requests
        periodBytes := bytes } }

abbrev Steps : System → System → Prop := Relation.ReflTransGen Step

variable {t t' t'' : System} {setup : Setup}

theorem Step.kept (h : Step t t') (kept : t.Kept setup) : t'.Kept setup := by
  cases h with
  | perform op => exact perform_kept kept op
  | notice work ack forced requests bytes =>
    have inStep := kept.inStep
    exact ⟨⟨⟨inStep.index, inStep.timeline, inStep.onTimeline⟩, inStep.counted, inStep.unused⟩,
      kept.setup_eq, kept.numbered, kept.places, kept.delivery⟩

theorem Steps.kept (h : Steps t t') (kept : t.Kept setup) : t'.Kept setup := by
  induction h with
  | refl => exact kept
  | tail _ step ih => exact step.kept ih

variable {ω : Type} {log : ω → List Handover} {calls rest : List Handover}
  {releases requests : List Request} {s s' : Session ω}

/-- The history goes on from `t` to `t'` and tells of the session `s`, in whose world the calls of
the caller's code are logged. What was due or to be released in `t` still is, and besides that the
given calls and releases. -/
structure Tells (log : ω → List Handover) (t t' : System) (calls : List Handover)
    (releases : List Request) (s : Session ω) : Prop where
  steps : Steps t t'
  core : t'.core = s.core
  made : t'.made = log s.world
  due : t'.due = t.due ++ calls
  passing : t'.passing = t.passing ++ releases

/-- The history can go on from `t` so that it tells of the session, with no call left to be made. -/
def Told (log : ω → List Handover) (t : System) (s : Session ω) : Prop :=
  ∃ t', Tells log t t' [] [] s

namespace Tells

theorem refl (core : t.core = s.core) (made : t.made = log s.world) : Tells log t t [] [] s :=
  ⟨.refl, core, made, (List.append_nil _).symm, (List.append_nil _).symm⟩

theorem trans (h : Tells log t t' calls releases s) (k : Tells log t' t'' [] [] s') :
    Tells log t t'' calls releases s' where
  steps := h.steps.trans k.steps
  core := k.core
  made := k.made
  due := k.due.trans ((List.append_nil _).trans h.due)
  passing := k.passing.trans ((List.append_nil _).trans h.passing)

/-- Nothing falls due with the step. -/
theorem step {c : Core} (h : Tells log t t' calls releases s) (step : Step t' t'')
    (core : t''.core = c)
    (still : t''.made = t'.made ∧ t''.due = t'.due ∧ t''.passing = t'.passing) :
    Tells log t t'' calls releases { s with core := c } := by
  obtain ⟨made, due, passing⟩ := still
  exact ⟨h.steps.tail step, core, made.trans h.made, due.trans h.due, passing.trans h.passing⟩

theorem setWorld (h : Tells log t t' calls releases s) {world : ω} (same : log world = log s.world) :
    Tells log t t' calls releases { s with world := world } :=
  ⟨h.steps, h.core, h.made.trans same.symm, h.due, h.passing⟩

/-- The first of the calls is made. -/
theorem make {call : Handover} (h : Tells log t t' (call :: rest) releases s) :
    ∃ u, Steps t u ∧ u.core = s.core ∧ u.made = log s.world ++ [call] ∧ u.due = t.due ++ rest ∧
      u.passing = t.passing ++ releases := by
  have here : t'.due[t.due.length]? = some call := by simp [h.due]
  have form : t'.perform (.act (.handOver t.due.length)) =
      { t' with made := t'.made ++ [call], due := t'.due.eraseIdx t.due.length } := by
    change t'.handOver _ = _
    simp [handOver, here]
  have step := Step.perform t' (.act (.handOver t.due.length))
  rw [form] at step
  refine ⟨_, h.steps.tail step, h.core, congrArg (· ++ [call]) h.made, ?_, h.passing⟩
  simp [h.due, eraseIdx_length_append]

/-- The release that is left is noted. -/
theorem settle {r : Request} (h : Tells log t t' calls [r] s) :
    ∃ u, Tells log t u calls [] (s.mapCore (·.noteRelease r.length)) := by
  have here : t'.passing[t.passing.length]? = some r := by simp [h.passing]
  have form : t'.perform (.act (.settle t.passing.length)) =
      { t' with core := t'.core.noteRelease r.length
                passing := t'.passing.eraseIdx t.passing.length } := by
    change t'.settle _ = _
    simp [System.settle, here]
  have step := Step.perform t' (.act (.settle t.passing.length))
  rw [form] at step
  refine ⟨_, h.steps.tail step, congrArg (·.noteRelease r.length) h.core, h.made, h.due, ?_⟩
  simp [h.passing, eraseIdx_length_append]

/-- An entry goes out, and the calls for its requests fall due. -/
theorem send {c : Core} {op : Operation} (h : Tells log t t' calls releases s)
    (out : t'.perform op = { t' with core := c }.handOut requests) :
    ∃ u, Tells log t u (calls ++ c.setup.callbacks.handovers requests) releases
      { s with core := c } := by
  have step := Step.perform t' op
  rw [out] at step
  refine ⟨_, h.steps.tail step, rfl, h.made, ?_, h.passing⟩
  simp [handOut, h.due]

end Tells

namespace Told

theorem step {c : Core} (h : Told log t s) (a : Action) (core : ∀ u : System, u.core = s.core →
      (u.act a).core = c)
    (still : ∀ u : System, (u.act a).made = u.made ∧ (u.act a).due = u.due ∧
      (u.act a).passing = u.passing) : Told log t { s with core := c } := by
  obtain ⟨u, tells⟩ := h
  exact ⟨_, tells.step (.perform u (.act a)) (core u tells.core) (still u)⟩

theorem notice (h : Told log t s) (work ack : Bool) (forced : Option PolicyKind)
    (requests bytes : Nat) : Told log t { s with core := { s.core with
      workSignal := work
      ackSignal := ack
      forced := forced
      periodRequests := requests
      periodBytes := bytes } } := by
  obtain ⟨u, tells⟩ := h
  refine ⟨_, tells.step (.notice u work ack forced requests bytes) ?_ ⟨rfl, rfl, rfl⟩⟩
  rw [tells.core]

theorem setWorld (h : Told log t s) {world : ω} (same : log world = log s.world) :
    Told log t { s with world := world } :=
  h.imp fun _ tells => tells.setWorld same

theorem complete (h : Told log t s) (now : Nat) (a : Address) :
    Told log t { s with core := (s.core.complete now a).1 } :=
  h.step (.complete now a) (fun _ same => congrArg (fun c : Core => (c.complete now a).1) same)
    fun _ => ⟨rfl, rfl, rfl⟩

theorem cancel (h : Told log t s) (a : Address) : Told log t (s.cancel a).2 := by
  refine h.step (.cancel a) (fun u same => ?_) fun u => ?_
  · exact (core_cancel u a).trans (congrArg (fun c : Core => (c.cancel a).1) same)
  · change (u.cancel a).made = u.made ∧ (u.cancel a).due = u.due ∧ (u.cancel a).passing = u.passing
    unfold System.cancel
    dsimp only
    split <;> exact ⟨rfl, rfl, rfl⟩

theorem migrate (h : Told log t s) (k : PolicyKind) : Told log t (s.mapCore (·.migrate k)) :=
  h.step (.migrate k) (fun _ same => congrArg (fun c : Core => c.migrate k) same)
    fun _ => ⟨rfl, rfl, rfl⟩

theorem stop (h : Told log t s) : Told log t (s.mapCore (·.requestStop)) :=
  h.step .stop (fun _ same => congrArg Core.requestStop same) fun _ => ⟨rfl, rfl, rfl⟩

theorem reset (h : Told log t s) : Told log t (s.mapCore (·.resetStatistics)) :=
  h.step .reset (fun _ same => congrArg Core.resetStatistics same) fun _ => ⟨rfl, rfl, rfl⟩

end Told

end System

open IoScheduling.System (Steps Step Tells Told)

variable {ω : Type}

/-- Whatever the caller's code does with the core a history can tell, and it returns when the calls
that it has caused have returned. All calls of it are found in the log. -/
structure Host.Logs (host : Host ω) (log : ω → List Handover) : Prop where
  clock : ∀ w, log (host.clock w).2 = log w
  roll : ∀ w, log (host.roll w).2 = log w
  handOver : ∀ call s t, t.core = s.core → t.made = log s.world ++ [call] →
    Told log t (host.handOver call s)
  awaitRelease : ∀ t s, Told log t s → Told log t (host.awaitRelease s)
  awaitWork : ∀ timeout t s, Told log t s → Told log t (host.awaitWork timeout s)

variable {host : Host ω} {log : ω → List Handover} {t t' : System} {s : Session ω}
  {calls rest : List Handover} {releases requests : List Request} {setup : Setup}

namespace Host.Logs

theorem now (logs : host.Logs log) (h : Told log t s) : Told log t (s.now host).2 :=
  h.setWorld (logs.clock s.world)

/-- The calls for the requests of one entry are made one after another. -/
theorem handOver_tells (logs : host.Logs log)
    (h : Tells log t t' (s.core.setup.callbacks.handovers requests ++ rest) releases s) :
    ∃ u, Tells log t u rest releases (s.handOver host requests) := by
  unfold Session.handOver
  generalize s.core.setup.callbacks.handovers requests = all at h
  induction all generalizing s t' with
  | nil => exact ⟨t', h⟩
  | cons call more ih =>
    obtain ⟨u, steps, core, made, due, passing⟩ := h.make
    obtain ⟨u', after⟩ := logs.handOver call s u core made
    refine ih ⟨steps.trans after.steps, after.core, after.made, ?_, ?_⟩
    · simp [after.due, due]
    · simp [after.passing, passing]

theorem deliver_tells (logs : host.Logs log) (some : requests ≠ []) (k : PolicyKind)
    (h : Tells log t t' (s.core.setup.callbacks.handovers requests ++ rest) releases s) :
    ∃ u, Tells log t u rest releases (s.deliver host requests k) := by
  obtain ⟨u, handed⟩ := logs.handOver_tells h
  unfold Session.deliver
  rw [if_neg (mt List.isEmpty_iff.mp some)]
  dsimp only
  split
  · obtain ⟨u', waited⟩ := logs.awaitRelease u _ ⟨u, .refl handed.core handed.made⟩
    exact ⟨u', handed.trans waited⟩
  · exact ⟨u, handed⟩

/-- A submission returns when its request is queued, or has been passed through. -/
theorem submit_told (logs : host.Logs log) (h : Told log t s) (call : Submission) :
    Told log t (s.submit host call).2 := by
  obtain ⟨t', read⟩ := logs.now h
  have step := Step.perform t' (.act (.submit (s.now host).1 call))
  change Step t' (t'.submit (s.now host).1 call) at step
  unfold Session.submit
  unfold System.submit at step
  rw [read.core] at step
  dsimp only
  generalize (s.now host).2.core.submit (s.now host).1 call = outcome at step ⊢
  obtain ⟨core, fault | _ | r⟩ := outcome
  · exact ⟨_, read.step step rfl ⟨rfl, rfl, rfl⟩⟩
  · exact ⟨_, read.step step rfl ⟨rfl, rfl, rfl⟩⟩
  · let passing : Session ω := { (s.now host).2 with core := core }
    obtain ⟨v, passed⟩ : ∃ v, Tells log t v
        (passing.core.setup.callbacks.handovers [r] ++ []) [r] passing := by
      refine ⟨_, read.steps.tail step, rfl, read.made, ?_, ?_⟩
      · simp [System.handOut, read.due, passing]
      · simp [System.handOut, read.passing]
    obtain ⟨u, handed⟩ := logs.handOver_tells passed
    exact handed.settle

theorem complete_told (logs : host.Logs log) (h : Told log t s) (a : Address) :
    Told log t (s.complete host a).2 :=
  (logs.now h).complete (s.now host).1 a

end Host.Logs

/-- The history tells of the session, and the calls for the requests that are ready are due. -/
def Underway (setup : Setup) (log : ω → List Handover) (t : System) (ready : List (List Request))
    (s : Session ω) : Prop :=
  (∀ requests ∈ ready, requests ≠ []) ∧
    ∃ u, Tells log t u (ready.flatMap setup.callbacks.handovers) [] s

theorem underway_nil : Underway setup log t [] s ↔ Told log t s := by
  simp [Underway, Told]

namespace Underway

variable {ready : List (List Request)} {c : Core}

theorem setWorld (h : Underway setup log t ready s) {world : ω} (same : log world = log s.world) :
    Underway setup log t ready { s with world := world } :=
  ⟨h.1, h.2.imp fun _ tells => tells.setWorld same⟩

theorem note (h : Underway setup log t ready s) (op : Operation)
    (same : ∀ u : System, u.core = s.core → u.perform op = { u with core := c }) :
    Underway setup log t ready { s with core := c } := by
  obtain ⟨some, u, tells⟩ := h
  have step := Step.perform u op
  rw [same u tells.core] at step
  exact ⟨some, _, tells.step step rfl ⟨rfl, rfl, rfl⟩⟩

theorem send (kept : t.Kept setup) (h : Underway setup log t ready s) (op : Operation)
    (some : requests ≠ [])
    (out : ∀ u : System, u.core = s.core →
      u.perform op = { u with core := c }.handOut requests) :
    Underway setup log t (ready ++ [requests]) { s with core := c } := by
  obtain ⟨each, u, tells⟩ := h
  obtain ⟨v, sent⟩ := tells.send (out u tells.core)
  refine ⟨?_, v, ?_⟩
  · simpa [or_imp, forall_and] using ⟨each, some⟩
  · have same : c.setup = setup :=
      (congrArg Core.setup sent.core).symm.trans (sent.steps.kept kept).setup_eq
    rw [same] at sent
    simpa using sent

end Underway

/-- Histories go along with a policy at work. -/
theorem Host.Logs.carries (logs : host.Logs log) (kept : t.Kept setup) :
    host.Carries (Underway setup log t) where
  now ready s h := h.setWorld (logs.clock s.world)
  select ready s quantumBytes now h := by
    refine h.note (.select quantumBytes now) fun u same => ?_
    simp [System.perform, same]
  turn ready s q k now dispatched consumed h := by
    refine h.note (.turn q k now dispatched consumed) fun u same => ?_
    simp [System.perform, same]
  dispatch ready s now file d i k inQuantum requests c h hd := by
    refine h.send kept (.act (.dispatch now file d i k inQuantum))
      (Core.dispatch?_ne_nil hd) fun u same => ?_
    simp [System.perform, System.act, same, hd, System.dispatched]
  dispatchHead ready s now k requests c h hd := by
    refine h.send kept (.act (.dispatchHead now k)) (Core.dispatchHead?_ne_nil hd)
      fun u same => ?_
    simp [System.perform, System.act, same, hd, System.dispatched]
  visit ready s quantum now lane h := by
    intro scan
    obtain ⟨u, tells⟩ := h.2
    have inStep : s.core.InStep := tells.core ▸ (tells.steps.kept kept).inStep
    obtain ⟨out, found, ends⟩ :=
      Core.visit_ends host quantum now ⟨s, [], none⟩ inStep lane.1 lane.2
    have performed (v : System) (same : v.core = s.core) :
        v.perform (.visit host s.world quantum now lane.1 lane.2) =
          out.foldl System.handOut { v with core := scan.session.core } := by
      rw [System.perform, same]
      exact congrArg (List.foldl System.handOut _) found
    have served : Underway setup log t (ready ++ out) { s with core := scan.session.core } := by
      change Core.Visit s.core now lane.1 lane.2 scan.session.core out at ends
      generalize scan.session.core = c at ends performed ⊢
      cases ends with
      | kept => exact (List.append_nil ready).symm ▸ h.note _ performed
      | dispatched _ went => exact h.send kept _ (Core.dispatch?_ne_nil went) performed
    have unread : log scan.session.world = log s.world :=
      Feedback.visit_world (P := fun w => log w = log s.world) quantum now ⟨s, [], none⟩ lane
        (fun w hw => (logs.clock w).trans hw) rfl
    change scan.ready = out at found
    rw [found]
    exact served.setWorld unread
  deliver requests ready s k h := by
    obtain ⟨some, u, tells⟩ := h
    have same : s.core.setup = setup :=
      (congrArg Core.setup tells.core).symm.trans (tells.steps.kept kept).setup_eq
    rw [List.flatMap_cons, ← same] at tells
    obtain ⟨v, delivered⟩ := logs.deliver_tells (some requests List.mem_cons_self) k tells
    rw [same] at delivered
    exact ⟨fun rs hrs => some rs (List.mem_cons_of_mem _ hrs), v, delivered⟩

/-- When a policy returns, the caller's code has been called for everything that went out. -/
theorem Policy.schedule_told (logs : host.Logs log) (kept : t.Kept setup) (h : Told log t s)
    (p : Policy) (limit : Nat) : Told log t (p.schedule host limit s).2.session := by
  have start : Underway setup log t [] s := underway_nil.mpr h
  exact underway_nil.mp (p.schedule_carries (logs.carries kept) limit start)

namespace Dispatcher

variable {d : Dispatcher}

theorem ensure_told (h : Told log t s) (k : PolicyKind) : Told log t (d.ensure k s).2 := by
  unfold ensure
  split
  · exact h
  · exact h.migrate k

theorem takePeriod_told (h : Told log t s) :
    Told log t { s with core := s.core.takePeriod.2 } :=
  h.notice s.core.workSignal s.core.ackSignal s.core.forced 0 0

theorem install_told (logs : host.Logs log) (h : Told log t s) (k : PolicyKind) :
    Told log t (d.install host k s).2 :=
  ensure_told (takePeriod_told (logs.now h)) _

theorem next_told (logs : host.Logs log) (h : Told log t s) (bandwidth : Bandwidth)
    (x : Selector) : Told log t (x.next host bandwidth s).2.2 := by
  cases x with
  | bandit b => exact (logs.now h).setWorld (logs.roll _)
  | tree tree => exact h

theorem checkMigration_told (logs : host.Logs log) (h : Told log t s) :
    Told log t (d.checkMigration host s).2 := by
  unfold checkMigration
  split
  · rename_i k _
    have taken := h.notice s.core.workSignal s.core.ackSignal none s.core.periodRequests
      s.core.periodBytes
    unfold takeForced
    split
    · exact install_told logs taken k
    · exact ensure_told taken k
  · split
    · exact h
    · rename_i selector _
      dsimp only
      split
      · exact ensure_told (next_told logs (takePeriod_told (logs.now h)) _ selector) _
      · exact logs.now h

theorem start_told (logs : host.Logs log) (h : Told log t s) :
    Told log t (Dispatcher.start host s).2 := by
  unfold Dispatcher.start
  dsimp only
  split
  · exact install_told logs (logs.now h) _
  · exact logs.now h

theorem untilSelection_told (logs : host.Logs log) (h : Told log t s) :
    Told log t (d.untilSelection host s).2 := by
  unfold untilSelection
  split
  · exact h
  · exact logs.now h

theorem rest_told (logs : host.Logs log) (h : Told log t s) (pause : Option Nat) :
    Told log t (d.rest host pause s) := by
  unfold rest
  dsimp only
  split
  · exact logs.awaitWork _ t _ (untilSelection_told logs h)
  · split
    · exact logs.awaitWork _ t s h
    · exact h

/-- However long the scheduling loop goes on, whenever it comes back to its beginning no call is
left to be made. -/
theorem loop_told (logs : host.Logs log) (kept : t.Kept setup) (limit rounds : Nat)
    (pause : Option Nat) (h : Told log t s) :
    Told log t (d.loop host limit rounds pause s).2.1 := by
  induction rounds generalizing pause d s with
  | zero => exact h
  | succ rounds ih =>
    have rested := rest_told (d := d) logs h pause
    unfold loop
    split
    · exact h
    · dsimp only
      split
      · exact rested
      · have checked := checkMigration_told (d := d) logs rested
        have served := (d.checkMigration host (d.rest host pause s)).1.policy.schedule_told logs kept
          checked limit
        split
        · exact ih _ served
        · exact served

end Dispatcher

end IoScheduling
