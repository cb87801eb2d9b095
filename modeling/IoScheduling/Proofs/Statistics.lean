import IoScheduling.Proofs.Runtimes
import IoScheduling.Service.Checksum

/-! # Resets go unnoticed

Twins stay twins in the course of a run as long as no meta-policy selects, since only a meta-policy
looks at what a reset clears. So resets can be put into a run, or taken out of it, wherever one
likes. -/
namespace IoScheduling

open Outside (Call)

namespace Outside

open Session (Twins)

def Like (s s' : Session Outside) : Prop := Twins Same s.core.post s s'

def Gives {α : Type} (x x' : α × Session Outside) : Prop := x.1 = x'.1 ∧ Like x.2 x'.2

theorem like_of_twins {p : Setup × PolicyKind} {s s' : Session Outside}
    (h : Twins Same p s s') : Like s s' := ⟨h.alike, rfl, h.world⟩

end Outside

namespace Dispatcher

open Outside (Like Gives)

variable {g : Circumstances} {s s' : Session Outside} (d : Dispatcher) (k : PolicyKind)

theorem switchTo_like (h : Like s s') : Gives (d.switchTo k s) (d.switchTo k s') := by
  have alike : (s.core.migrate k).Alike (s'.core.migrate k) :=
    Core.Alike.same (q := fun c => (c.migrate k).resetStatistics) (fun c => c.migrate_reset k)
      h.alike
  refine ⟨?_, alike, rfl, h.world⟩
  unfold switchTo
  rw [h.setup]

theorem ensure_like (h : Like s s') : Gives (d.ensure k s) (d.ensure k s') := by
  unfold ensure
  split
  · exact ⟨rfl, h⟩
  · exact d.switchTo_like k h

theorem install_like (h : Like s s') :
    Gives (install (Runtime.host g) d k s) (install (Runtime.host g) d k s') := by
  obtain ⟨now, t, t', hn, hn', twins⟩ := (h.now (Runtime.respects g _)).split
  have period : Like (t.mapCore fun c => c.takePeriod.2) (t'.mapCore fun c => c.takePeriod.2) :=
    Outside.like_of_twins (Outside.mapCore_twins (f := fun c => c.takePeriod.2) twins
      (fun c => (Core.Alike.reset c.takePeriod.2).symm) fun _ => rfl)
  unfold install
  rw [hn, hn', show s'.core.config = s.core.config from congrArg Setup.config h.setup]
  exact ensure_like _ _ period

theorem takeForced_like (h : Like s s') :
    Gives (takeForced (Runtime.host g) d k s) (takeForced (Runtime.host g) d k s') := by
  unfold takeForced
  split
  · exact d.install_like k h
  · exact ensure_like _ k h

theorem checkMigration_like (plain : d.selector = none) (h : Like s s') :
    Gives (checkMigration (Runtime.host g) d s) (checkMigration (Runtime.host g) d s') := by
  have forced : s.core.forced = s'.core.forced :=
    Core.Alike.same (q := Core.forced) (fun _ => rfl) h.alike
  unfold checkMigration
  rw [← forced, plain]
  cases s.core.forced with
  | none => exact ⟨rfl, h⟩
  | some k =>
    have taken := Outside.mapCore_twins (f := fun c => { c with forced := none }) h
      (fun c => (Core.Alike.reset { c with forced := none }).symm) fun _ => rfl
    exact d.takeForced_like k (Outside.like_of_twins taken)

theorem start_like (h : Like s s') :
    Gives (start (Runtime.host g) s) (start (Runtime.host g) s') := by
  obtain ⟨now, t, t', hn, hn', twins⟩ := (h.now (Runtime.respects g _)).split
  have active : t'.core.active = t.core.active :=
    Core.Alike.same (q := Core.active) (fun _ => rfl) twins.alike.symm
  unfold start
  rw [hn, hn', show s'.core.config = s.core.config from congrArg Setup.config h.setup]
  dsimp only
  rw [twins.setup, active]
  split
  · exact install_like _ _ (Outside.like_of_twins twins)
  · exact ⟨rfl, Outside.like_of_twins twins⟩

end Dispatcher

namespace Runtime

open Outside (Like bareAll)

variable {g : Circumstances} {r r' : Runtime}

structure Twins (r r' : Runtime) : Prop where
  dispatcher : r.dispatcher = r'.dispatcher
  session : Like r.session r'.session

def Operation.isReset : Operation → Bool
  | call c => c.isReset
  | _ => false

theorem Operation.eq_reset {op : Operation} (h : op.isReset) : op = .call .reset := by
  cases op with
  | call c => rw [Call.eq_reset h]
  | check | runOnce | migrate => cases h

/-- The operation without the resets inside it. -/
def Operation.bare : Operation → Operation
  | call c => call c.bare
  | check => check
  | runOnce limit => runOnce limit
  | migrate k => migrate k

theorem Operation.isReset_bare (op : Operation) : op.bare.isReset = op.isReset := by
  cases op with
  | call c => cases c <;> rfl
  | check | runOnce | migrate => rfl

theorem start_twins (setup : Setup) {script script' : List (List Call)}
    (same : script.map bareAll = script'.map bareAll) :
    Twins (start g setup script) (start g setup script') := by
  have begun : Like ⟨.start setup, .start script⟩ ⟨.start setup, .start script'⟩ :=
    ⟨rfl, rfl, rfl, rfl, same, rfl⟩
  obtain ⟨dispatcher, session⟩ := Dispatcher.start_like (g := g) begun
  exact ⟨dispatcher, session⟩

theorem step_reset_twins (h : Twins r r') : Twins (r.step g (.call .reset)) r' :=
  ⟨h.dispatcher, (Core.Alike.reset r.session.core).symm.trans h.session.alike, rfl, h.session.world⟩

theorem step_twins (h : Twins r r') (plain : r.dispatcher.selector = none) {op : Operation}
    (common : op.isReset = false) : Twins (r.step g op) (r'.step g op.bare) := by
  cases op with
  | call c => exact ⟨h.dispatcher, Outside.like_of_twins (Outside.perform_twins c common h.session)⟩
  | check =>
    obtain ⟨dispatcher, session⟩ := r.dispatcher.checkMigration_like (g := g) plain h.session
    unfold Operation.bare step
    rw [← h.dispatcher]
    exact ⟨dispatcher, session⟩
  | runOnce limit =>
    obtain ⟨policy, outcome, finished, session⟩ := Policy.schedule_twins
      (respects g _) r.dispatcher.policy limit h.session
    unfold Operation.bare step Dispatcher.runOnce
    dsimp only
    rw [← h.dispatcher, ← policy, ← outcome, ← finished]
    exact ⟨rfl, Outside.like_of_twins (Outside.note_twins session _)⟩
  | migrate k =>
    obtain ⟨dispatcher, session⟩ := r.dispatcher.switchTo_like k h.session
    unfold Operation.bare step
    rw [← h.dispatcher]
    exact ⟨dispatcher, session⟩

def bareAll (ops : List Operation) : List Operation :=
  (ops.filter fun op => !op.isReset).map Operation.bare

/-- What there is to see of a runtime. -/
structure Seen where
  dispatcher : Dispatcher
  /-- The core as a reset would leave it: with its pending entries, the dispatch records, grants and
  cooldowns of its files, its counts and its active policy. -/
  core : Core
  heard : List Outside.Event

def seen (r : Runtime) : Seen :=
  ⟨r.dispatcher, r.session.core.resetStatistics, r.session.world.heard⟩

/-- What is seen at the start and after each operation that is no reset. -/
def history (g : Circumstances) (r : Runtime) : List Operation → List Seen
  | [] => [r.seen]
  | op :: rest =>
    if op.isReset then history g (r.step g op) rest
    else r.seen :: history g (r.step g op) rest

theorem Twins.seen (h : Twins r r') : r.seen = r'.seen := by
  unfold Runtime.seen
  rw [h.dispatcher, h.session.alike, h.session.world.heard]

theorem history_bareAll (h : Twins r r') (ops : List Operation)
    (plain : (∀ x ∈ history g r ops, x.dispatcher.selector = none) ∨
      ∀ x ∈ history g r' (bareAll ops), x.dispatcher.selector = none) :
    history g r ops = history g r' (bareAll ops) := by
  induction ops generalizing r r' with
  | nil => exact congrArg (fun x => [x]) h.seen
  | cons op rest ih =>
    by_cases reset : op.isReset
    · obtain rfl : op = .call .reset := Operation.eq_reset reset
      exact ih (step_reset_twins h) plain
    · have common : op.isReset = false := Bool.eq_false_iff.mpr reset
      have bare : bareAll (op :: rest) = op.bare :: bareAll rest := by
        unfold bareAll
        rw [List.filter_cons_of_pos (by rw [common]; rfl), List.map_cons]
      have still : op.bare.isReset = false := op.isReset_bare.trans common
      rw [bare] at plain ⊢
      unfold history at plain ⊢
      rw [if_neg reset, if_neg (Bool.eq_false_iff.mp still)] at plain ⊢
      have now : r.dispatcher.selector = none := by
        rcases plain with plain | plain
        · exact plain r.seen List.mem_cons_self
        · rw [h.dispatcher]
          exact plain r'.seen List.mem_cons_self
      have later := plain.imp (fun all x hx => all x (List.mem_cons_of_mem _ hx))
        fun all x hx => all x (List.mem_cons_of_mem _ hx)
      rw [h.seen, ih (step_twins h now common) later]

/-- Two runs that differ only in resets of the statistics do the same, as long as no meta-policy is
in charge: every call is answered alike, the same requests are handed over in the same batches and
order, and after every operation the core is the same up to what a reset clears. -/
theorem resets_go_unnoticed (g : Circumstances) (setup : Setup) (script script' : List (List Call))
    (ops ops' : List Operation)
    (occasions : script.map Outside.bareAll = script'.map Outside.bareAll)
    (same : bareAll ops = bareAll ops')
    (plain : ∀ x ∈ history g (start g setup script) ops, x.dispatcher.selector = none) :
    history g (start g setup script) ops = history g (start g setup script') ops' := by
  have twins : Twins (start g setup script) (start g setup script) := start_twins setup rfl
  have left := history_bareAll twins ops (.inl plain)
  have right := history_bareAll (g := g) (start_twins setup occasions.symm) ops'
    (.inr (by rw [← same, ← left]; exact plain))
  rw [left, right, same]

/-- Two requests are merged and dispatched, and the caller's code acknowledges one of them. The size
of their entry is not forgotten by a reset, so the lone request that follows is held back. -/
theorem resets_between_requests_unnoticed :
    let g : Circumstances := ⟨fun n => 1000 * n, fun _ => 0, fun _ _ => false⟩
    let setup : Setup := .of .defaults .one 1
    let acknowledged : Call := .complete ⟨"f", .read, 0, 8⟩
    let request (offset : Nat) : Operation := .call (.submit ⟨"f", .read, offset, 8, 0, 0⟩ [])
    let script := [[.reset, acknowledged], [.reset]]
    let ops := [.migrate .feedback, request 0, .call .reset, request 8, .runOnce 4, .call .reset,
      request 64, .runOnce 4, .call .report]
    let ops' := [.migrate .feedback, request 0, request 8, .runOnce 4, request 64, .runOnce 4,
      .call .report]
    (∀ x ∈ history g (start g setup script) ops, x.dispatcher.selector = none) ∧
      history g (start g setup script) ops = history g (start g setup [[acknowledged], []]) ops' :=
  have plain := by decide +kernel
  ⟨plain, resets_go_unnoticed _ _ _ _ _ _ rfl rfl plain⟩

end Runtime

end IoScheduling
