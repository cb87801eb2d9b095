import IoScheduling.Proofs.Counting
import IoScheduling.Proofs.Entries

/-! # Migration only moves

The four ways to change between the indexes hand entries over one at a time. A passage is what each
of them is made of: entries arrive and may merge, the counts stay, and of a file nothing changes but
where its requests wait. -/
namespace IoScheduling

/-- A file without its pending requests. -/
def FileState.notes (f : FileState) : FileState := { f.drain.2 with onTimeline := 0 }

theorem FileState.notes_setLane {f : FileState} {d : Direction} {l : Lane}
    (h : l.drain.2 = (f.lane d).drain.2) : (f.setLane d l).notes = f.notes := by
  cases d with
  | read => exact congrArg (fun lane => { f.notes with reads := lane }) h
  | write => exact congrArg (fun lane => { f.notes with writes := lane }) h

namespace Core

structure Passage (arriving : Multiset Entry) (c c' : Core) : Prop where
  placed : c'.index.Placed
  fuses : Fuses (arriving + c.entryBag) c'.entryBag
  counts : c'.counts = c.counts
  notes : ∀ n, (c'.index.fileOf n).notes = (c.index.fileOf n).notes

variable {c c' : Core} {es fs : Multiset Entry}

theorem Passage.refl (h : c.index.Placed) : Passage 0 c c :=
  ⟨h, by rw [zero_add], rfl, fun _ => rfl⟩

theorem Passage.trans {c'' : Core} (h : Passage es c c') (k : Passage fs c' c'') :
    Passage (es + fs) c c'' where
  placed := k.placed
  fuses := by
    have first := h.fuses.add_left fs
    rw [add_left_comm, ← add_assoc] at first
    exact first.trans k.fuses
  counts := k.counts.trans h.counts
  notes := fun n => (k.notes n).trans (h.notes n)

theorem foldl_passage {step : Core → Entry → Core}
    (one : ∀ c e, c.index.Placed → Passage {e} c (step c e)) (es : List Entry)
    (h : c.index.Placed) : Passage es c (es.foldl step c) := by
  induction es generalizing c with
  | nil => exact .refl h
  | cons e es ih =>
    have first := one c e h
    have both := first.trans (ih first.placed)
    rwa [Multiset.singleton_add, Multiset.cons_coe] at both

theorem notes_moveTimelineCount (x : Index) (name : String) (move : Nat → Nat) (n : String) :
    ((x.moveTimelineCount name move).fileOf n).notes = (x.fileOf n).notes := by
  by_cases known : (x.file? name).isSome
  · exact (Index.moveTimelineCount_rewrites known move).reads FileState.notes rfl n
  · have unknown : x.file? name = none := Option.not_isSome_iff_eq_none.mp known
    unfold Index.moveTimelineCount
    rw [unknown]

theorem shelve_passage (c : Core) (e : Entry) (h : c.index.Placed) :
    Passage {e} c (c.shelve e) := by
  obtain ⟨placed, same⟩ := Index.moveTimelineCount_entryBag h e.file (· + e.count)
  refine ⟨placed, ?_, Index.counts_moveTimelineCount _ _ _, notes_moveTimelineCount _ _ _⟩
  have arrived := (Timeline.add_fuses c.timeline e).add_left c.index.entryBag
  rw [Multiset.add_cons] at arrived
  change Fuses _ ((c.index.moveTimelineCount e.file (· + e.count)).entryBag +
    ((c.timeline.add e).1.entries : Multiset Entry))
  rw [same]
  exact arrived

theorem adopt_passage (limit : Nat) (c : Core) (e : Entry) (h : c.index.Placed) :
    Passage {e} c (adopt limit c e) := by
  obtain ⟨placed, same⟩ := Index.moveTimelineCount_entryBag h e.file (· - e.count)
  have step := Index.adopt_rewrites (c.index.moveTimelineCount e.file (· - e.count)) e limit
  refine ⟨step.placed placed, ?_, Index.counts_moveTimelineCount _ _ _, fun n => ?_⟩
  · have arrived := (Index.adopt_fuses placed e limit).add_right c.timeline.entries
    rw [same, Multiset.cons_add] at arrived
    exact arrived
  · exact (step.reads _ (FileState.notes_setLane rfl) n).trans
      (notes_moveTimelineCount _ _ _ n)

theorem moveToTimeline_passage (h : c.index.Placed) : Passage 0 c c.moveToTimeline := by
  have emptied : ({ c with index := c.index.drain.2 } : Core).entryBag = c.timeline.entries := by
    rw [entryBag, Index.drain_entryBag, zero_add]
  have placed : c.index.drain.2.Placed :=
    Index.placed_mapAll (g := fun f => f.drain.2) (q := fun _ => 0) h fun _ => rfl
  have files : ∀ n, c.index.drain.2.fileOf n = (c.index.fileOf n).drain.2 :=
    Index.fileOf_mapAll c.index (fun _ => rfl) rfl fun _ => rfl
  have step := foldl_passage shelve_passage c.index.drain.1
    (c := { c with index := c.index.drain.2 }) placed
  refine ⟨step.placed, ?_, step.counts, fun n => (step.notes n).trans ?_⟩
  · have fuses := step.fuses
    rw [emptied] at fuses
    rw [zero_add, entryBag, ← Index.coe_entries, ← Index.drained_eq]
    exact fuses
  · change (c.index.drain.2.fileOf n).notes = _
    rw [files]
    rfl

theorem moveToIndex_passage (limit : Nat) (h : c.index.Placed) :
    Passage 0 c (c.moveToIndex limit) := by
  have step := foldl_passage (adopt_passage limit) c.timeline.entries
    (c := { c with timeline := c.timeline.drain.2 }) h
  refine ⟨step.placed, ?_, step.counts, step.notes⟩
  have fuses := step.fuses
  have emptied : ({ c with timeline := c.timeline.drain.2 } : Core).entryBag = c.index.entryBag :=
    add_zero _
  rw [emptied, add_comm] at fuses
  rw [zero_add]
  exact fuses

theorem transfer_passage (h : c.index.Placed) (k : PolicyKind) : Passage 0 c (c.transfer k) := by
  -- Setting the timeline up changes no entry.
  have configured {c' : Core} (step : Passage 0 { c with
      timeline := c.timeline.configure (c.setup.order k) (c.setup.limit k) } c') :
      Passage 0 c c' := ⟨step.placed, step.fuses, step.counts, step.notes⟩
  unfold transfer
  dsimp only
  split
  · exact configured (.refl h)
  · exact configured (moveToTimeline_passage h)
  · exact configured (moveToIndex_passage _ h)
  · split
    · refine ⟨h, ?_, rfl, fun _ => rfl⟩
      have same := Multiset.coe_eq_coe.mpr (Timeline.reorder_perm
        (c.timeline.configure (c.setup.order k) (c.setup.limit k)))
      rw [zero_add, entryBag, entryBag]
      exact same ▸ .refl
    · exact configured (.refl h)

/-- Everything about a file but where its requests wait is as it was. -/
structure Undisturbed (f g : FileState) : Prop where
  pending : g.pending = f.pending
  handedOut : ∀ d, (g.lane d).handedOut = (f.lane d).handedOut
  served : ∀ d, (g.lane d).served = (f.lane d).served
  learned : ∀ d, (g.lane d).learned = (f.lane d).learned
  shift : ∀ d, (g.lane d).shift = (f.lane d).shift
  tally : ∀ d, (g.lane d).tally = (f.lane d).tally
  grant : ∀ d, (g.lane d).grant = (f.lane d).grant
  waitingUntil : g.waitingUntil = f.waitingUntil
  waitedSeq : g.waitedSeq = f.waitedSeq
  firstArrival : g.firstArrival = f.firstArrival

theorem undisturbed_of_notes {f g : FileState} (pending : g.pending = f.pending)
    (notes : g.notes = f.notes) : Undisturbed f g := by
  have lane : ∀ d, (g.lane d).drain.2 = (f.lane d).drain.2 := by
    intro d
    cases d with
    | read => exact congrArg FileState.reads notes
    | write => exact congrArg FileState.writes notes
  have of_lane {α : Type} (field : Lane → α) (d : Direction) :
      field (g.lane d).drain.2 = field (f.lane d).drain.2 := congrArg field (lane d)
  have of_file {α : Type} (field : FileState → α) : field g.notes = field f.notes :=
    congrArg field notes
  constructor
  case pending => exact pending
  case handedOut => exact of_lane Lane.handedOut
  case served => exact of_lane Lane.served
  case learned => exact of_lane Lane.learned
  case shift => exact of_lane Lane.shift
  case tally => exact of_lane Lane.tally
  case grant => exact of_lane Lane.grant
  case waitingUntil => exact of_file FileState.waitingUntil
  case waitedSeq => exact of_file FileState.waitedSeq
  case firstArrival => exact of_file FileState.firstArrival

/-- Migrations to the policies `ks`, one after another, lead from `c` to `c'`. They move the pending
requests to the index of the last policy, together with those they share an entry with. -/
structure Relocated (ks : List PolicyKind) (c c' : Core) : Prop where
  requests : (c'.inLanes ++ c'.onTimeline).Perm (c.inLanes ++ c.onTimeline)
  index : if c'.active.profile.bucketed then c'.onTimeline = [] else c'.inLanes = []
  counts : c'.counts = c.counts
  together : ∀ e ∈ c.entryBag, ∃ e' ∈ c'.entryBag, e.Within e'
  files : ∀ name, Undisturbed (c.index.fileOf name) (c'.index.fileOf name)
  active : c'.active = ks.getLast?.getD c.active
  epoch : c'.epoch = c.epoch + ks.length
  ledger : c'.ledger = { c.ledger with migrations := c.ledger.migrations + ks.length }
  frame : { c' with
    index := c.index
    timeline := c.timeline
    active := c.active
    epoch := c.epoch
    ledger := c.ledger
    workSignal := c.workSignal } = c

theorem InStep.unused_empty (h : c.InStep) :
    if c.active.profile.bucketed then c.onTimeline = [] else c.inLanes = [] := by
  have unused := h.unused
  split
  · rename_i bucketed
    rw [if_pos bucketed, Timeline.contents] at unused
    rw [onTimeline, entries_eq_nil unused]
    rfl
  · rename_i bucketed
    rw [if_neg bucketed, ← Index.contents_entries] at unused
    rw [inLanes, entries_eq_nil unused]
    rfl

theorem relocated_nil (h : c.InStep) : Relocated [] c c where
  requests := .refl _
  index := h.unused_empty
  counts := rfl
  together := fun e he => ⟨e, he, .refl e⟩
  files := fun _ => undisturbed_of_notes rfl rfl
  active := rfl
  epoch := rfl
  ledger := rfl
  frame := rfl

theorem migrate_fuses (h : c.InStep) (k : PolicyKind) :
    Fuses c.entryBag (c.migrate k).entryBag := by
  have moved := (transfer_passage h.index.placed k).fuses
  rw [zero_add] at moved
  exact moved

theorem relocated_migrate (h : c.InStep) (k : PolicyKind) : Relocated [k] c (c.migrate k) := by
  obtain ⟨⟨x, t, form⟩, inStep, pending, -⟩ := migrate_effect h k
  have passage := transfer_passage h.index.placed k
  have fuses := migrate_fuses h k
  constructor
  case requests =>
    apply Multiset.coe_eq_coe.mp
    rw [← requestBag_entryBag, ← requestBag_entryBag, fuses.requestBag_eq]
  case index => exact inStep.unused_empty
  case counts => exact passage.counts
  case together => exact fun e he => fuses.within he
  case files =>
    intro name
    refine undisturbed_of_notes ?_ (passage.notes name)
    rw [h.toTracks.pending_eq, inStep.toTracks.pending_eq]
    exact congrArg _ pending
  case active => rfl
  case epoch => rw [form]; rfl
  case ledger => rw [form]; rfl
  case frame => rw [form]

theorem Undisturbed.trans {f g h : FileState} (a : Undisturbed f g) (b : Undisturbed g h) :
    Undisturbed f h where
  pending := b.pending.trans a.pending
  handedOut := fun d => (b.handedOut d).trans (a.handedOut d)
  served := fun d => (b.served d).trans (a.served d)
  learned := fun d => (b.learned d).trans (a.learned d)
  shift := fun d => (b.shift d).trans (a.shift d)
  tally := fun d => (b.tally d).trans (a.tally d)
  grant := fun d => (b.grant d).trans (a.grant d)
  waitingUntil := b.waitingUntil.trans a.waitingUntil
  waitedSeq := b.waitedSeq.trans a.waitedSeq
  firstArrival := b.firstArrival.trans a.firstArrival

theorem Relocated.trans {ks ls : List PolicyKind} {c'' : Core} (h : Relocated ks c c')
    (k : Relocated ls c' c'') : Relocated (ks ++ ls) c c'' := by
  constructor
  case requests => exact k.requests.trans h.requests
  case index => exact k.index
  case counts => exact k.counts.trans h.counts
  case together =>
    intro e he
    obtain ⟨e', he', first⟩ := h.together e he
    obtain ⟨e'', he'', second⟩ := k.together e' he'
    exact ⟨e'', he'', first.trans second⟩
  case files => exact fun name => (h.files name).trans (k.files name)
  case active =>
    rw [k.active, h.active, List.getLast?_append]
    cases ls.getLast? <;> rfl
  case epoch => rw [k.epoch, h.epoch, List.length_append, Nat.add_assoc]
  case ledger => rw [k.ledger, h.ledger, List.length_append, ← Nat.add_assoc]
  case frame =>
    have first := h.frame
    rw [← k.frame] at first
    exact first

theorem foldl_migrate_relocated (ks : List PolicyKind) (h : c.InStep) :
    Relocated ks c (ks.foldl migrate c) := by
  induction ks generalizing c with
  | nil => exact relocated_nil h
  | cons k ks ih =>
    obtain ⟨-, inStep, -, -⟩ := migrate_effect h k
    exact (relocated_migrate h k).trans (ih inStep)

end Core

namespace System

/-- After any run, migrations take every pending request along and change nothing else. -/
theorem run_migrations_relocate (setup : Setup) (actions : List Action) (ks : List PolicyKind) :
    Core.Relocated ks (run setup actions).core
      (ks.foldl Core.migrate (run setup actions).core) :=
  Core.foldl_migrate_relocated ks (run_inStep setup actions)

end System

end IoScheduling
