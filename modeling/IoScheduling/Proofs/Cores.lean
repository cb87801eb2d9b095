import IoScheduling.Core.Admission
import IoScheduling.Core.Dispatch
import IoScheduling.Proofs.Indexes
import IoScheduling.Proofs.Timeline
import Mathlib.Data.Multiset.OrderedMonoid

/-! # The two indexes of a core

An entry is pending in one of two indexes, and the bucketed one also counts by file what is on the
timeline. The two are in step as long as these counts are exact and the index that the active policy
does not use is empty. -/
namespace IoScheduling

/-- Most requests in one entry under any policy. -/
def Setup.entryBound (s : Setup) : Nat := max 1 (min aggregationCeiling s.config.maxAggregationSize)

theorem Setup.limit_le_entryBound (s : Setup) (k : PolicyKind) : s.limit k ≤ s.entryBound := by
  have ceiling : k.profile.maxAggregation ≤ aggregationCeiling := by cases k <;> decide
  unfold Setup.limit Config.aggregationLimit Setup.entryBound
  omega

theorem Setup.one_le_entryBound (s : Setup) : 1 ≤ s.entryBound := Nat.le_max_left _ _

structure Tracks (bound : Nat) (x : Index) (t : Timeline) : Prop where
  index : x.Sound bound
  timeline : t.Sound bound
  onTimeline : ∀ name, x.onTimeline name = countOf name t.contents

/-- All counts are exact, and one index is empty. -/
structure InStep (bound : Nat) (bucketed : Bool) (x : Index) (t : Timeline) : Prop
    extends Tracks bound x t where
  counted : x.Counted
  unused : if bucketed then t.contents = 0 else x.contents = 0

section

variable {bound : Nat} {bucketed : Bool} {x y : Index} {t t' : Timeline}

theorem Tracks.pending_eq (h : Tracks bound x t) (name : String) :
    (x.fileOf name).pending = countOf name (x.contents + t.contents) := by
  rw [countOf_add, Index.countOf_contents h.index, ← h.onTimeline]
  rfl

theorem Tracks.counted_moved (h : Tracks bound x t) (counted : x.Counted)
    (after : Tracks bound y t') (counts : y.counts = x.counts)
    (same : y.contents + t'.contents = x.contents + t.contents) : y.Counted := by
  refine counted.congr h.index.placed after.index.placed counts fun n => ?_
  rw [after.pending_eq, h.pending_eq, same]

theorem card_eq_sum_countOf {bag : Multiset Request} {names : Finset String}
    (cover : ∀ r ∈ bag, r.file ∈ names) : bag.card = ∑ n ∈ names, countOf n bag := by
  induction bag using Multiset.induction with
  | empty => simp
  | cons r bag ih =>
    have here := cover r (Multiset.mem_cons_self r bag)
    have one : ∀ n, countOf n (r ::ₘ bag) = countOf n bag + if n = r.file then 1 else 0 := by
      intro n
      unfold countOf
      rw [Multiset.countP_cons]
      simp only [eq_comm]
    rw [Multiset.card_cons, ih fun s hs => cover s (Multiset.mem_cons_of_mem hs)]
    simp only [one, Finset.sum_add_distrib, Finset.sum_ite_eq', here, if_true]

theorem Tracks.total_pending (h : Tracks bound x t) :
    x.total FileState.pending = (x.contents + t.contents).card := by
  let names := (x.files.map FileState.file).toFinset
  have cover : ∀ f ∈ x.files, f.file ∈ names := fun f hf =>
    List.mem_toFinset.mpr (List.mem_map_of_mem hf)
  have named : ∀ r ∈ x.contents + t.contents, r.file ∈ names := by
    intro r hr
    have pending : 0 < (x.fileOf r.file).pending := by
      rw [h.pending_eq]
      exact Multiset.countP_pos.mpr ⟨r, hr, rfl⟩
    rcases Index.fileOf_cases h.index.placed r.file with hf | hf
    · exact Index.file_fileOf x r.file ▸ cover _ hf
    · rw [hf] at pending
      exact absurd pending (lt_irrefl 0)
  rw [Index.total_eq_sum h.index.placed FileState.pending_fresh cover, card_eq_sum_countOf named]
  exact Finset.sum_congr rfl fun n _ => h.pending_eq n

theorem InStep.requests_eq (h : InStep bound bucketed x t) :
    x.counts.requests = (x.contents + t.contents).card :=
  h.counted.requests.trans h.total_pending

theorem InStep.replace (h : InStep bound bucketed x t) (hs : y.Sound bound)
    (hc : x.Counted → y.Counted) (same : y.contents = x.contents)
    (timeline : ∀ n, y.onTimeline n = x.onTimeline n) : InStep bound bucketed y t where
  index := hs
  timeline := h.timeline
  onTimeline := fun n => (timeline n).trans (h.onTimeline n)
  counted := hc h.counted
  unused := same.symm ▸ h.unused

theorem InStep.detach? {name : String} {d : Direction} {i : Nat} {e : Entry}
    (h : InStep bound bucketed x t) (hd : x.detach? name d i = some (e, y)) :
    InStep bound bucketed y t ∧ x.contents = e.contents + y.contents ∧ y.held = x.held := by
  obtain ⟨sound, counted, contents, held, timeline⟩ := Index.detach?_effect h.index hd
  refine ⟨⟨⟨sound, h.timeline, fun n => (timeline n).trans (h.onTimeline n)⟩,
    counted h.counted, ?_⟩, contents, held⟩
  have unused := h.unused
  by_cases used : bucketed
  · rwa [if_pos used] at unused ⊢
  · rw [if_neg used] at unused ⊢
    rw [contents] at unused
    exact (add_eq_zero.mp unused).2

theorem countOf_entry {e : Entry} {file : String} {d : Direction} (h : e.Sound bound file d)
    (name : String) : countOf name e.contents = if name = e.file then e.count else 0 := by
  rw [countOf_eq h.file_eq, card_contents_entry, h.own.1]

theorem InStep.pop? {e : Entry} (h : InStep bound bucketed x t) (hp : t.pop? = some (e, t')) :
    InStep bound bucketed (x.noteTimelineRemove e.file e.count) t' ∧
      (x.noteTimelineRemove e.file e.count).contents = x.contents ∧
      t.contents = e.contents + t'.contents ∧
      (x.noteTimelineRemove e.file e.count).held = x.held := by
  obtain ⟨sound, entry, -⟩ := Timeline.sound_pop? h.timeline hp
  have left := Timeline.contents_pop? hp
  have parts : ∀ n, x.onTimeline n = (if n = e.file then e.count else 0) + countOf n t'.contents := by
    intro n
    rw [h.onTimeline, left, countOf_add, countOf_entry entry]
  have enough : e.count ≤ x.onTimeline e.file := by
    rw [parts, if_pos rfl]
    exact Nat.le_add_right _ _
  obtain ⟨index, counted, contents, held, timeline⟩ :=
    Index.noteTimelineRemove_effect h.index e.file e.count_pos enough
  refine ⟨⟨⟨index, sound, fun n => ?_⟩, counted h.counted, ?_⟩, contents, left, held⟩
  · rw [timeline, parts]
    split <;> omega
  · have unused := h.unused
    by_cases used : bucketed
    · rw [if_pos used] at unused ⊢
      rw [left] at unused
      exact (add_eq_zero.mp unused).2
    · rw [if_neg used] at unused ⊢
      exact contents.trans unused

end

namespace Core

def InStep (c : Core) : Prop :=
  IoScheduling.InStep c.setup.entryBound c.active.profile.bucketed c.index c.timeline

/-- The pending requests of both indexes. -/
def pending (c : Core) : Multiset Request := c.index.contents + c.timeline.contents

def held (c : Core) : Multiset HandedOut := c.index.held

def inLanes (c : Core) : List Request := c.index.entries.flatMap Entry.requests

def onTimeline (c : Core) : List Request := c.timeline.entries.flatMap Entry.requests

theorem bareBag_inLanes (c : Core) : bareBag c.inLanes = c.index.contents :=
  c.index.contents_entries

theorem bareBag_onTimeline (c : Core) : bareBag c.onTimeline = c.timeline.contents := rfl

variable {c c' : Core} {now : Nat} {a : Address} {r : Request} {e : Entry}

theorem inStep_start (setup : Setup) : (start setup).InStep where
  index := Index.sound_withHash _ _
  timeline := by
    refine Timeline.sound_configure (Timeline.sound_empty setup.one_le_entryBound) _ ?_
    exact max_le (setup.limit_le_entryBound _) setup.one_le_entryBound
  onTimeline := fun _ => rfl
  counted := Index.counted_withHash _ _
  unused := by split <;> rfl

theorem InStep.mem_lane (h : c.InStep) (he : e ∈ c.index.entries) :
    e ∈ ((c.index.fileOf e.file).lane e.direction).entries := by
  obtain ⟨f, hf, he⟩ := List.mem_flatMap.mp he
  have lane : ∃ d, e ∈ (f.lane d).entries := by
    rcases List.mem_append.mp he with he | he
    · exact ⟨.read, he⟩
    · exact ⟨.write, he⟩
  obtain ⟨d, he⟩ := lane
  obtain ⟨file, direction⟩ := (((h.index.stored hf).lane d).queue.entries e he).own
  rw [file, direction, Index.fileOf_of_mem h.index.placed hf]
  exact he

theorem InStep.lane_mem (h : c.InStep) {name : String} {d : Direction}
    (he : e ∈ ((c.index.fileOf name).lane d).entries) :
    e ∈ c.index.entries ∧ e.file = name ∧ e.direction = d := by
  have own := (((h.index.file name).lane d).queue.entries e he).own
  rw [Index.file_fileOf] at own
  refine ⟨?_, own⟩
  rcases Index.fileOf_cases h.index.placed name with stored | fresh
  · refine List.mem_flatMap.mpr ⟨_, stored, List.mem_append.mpr ?_⟩
    cases d with
    | read => exact .inl he
    | write => exact .inr he
  · rw [fresh] at he
    cases d <;> exact absurd he List.not_mem_nil

theorem contents_single (r : Request) : (Entry.single r).contents = {r.bare} := rfl

theorem countOf_single (name : String) (r : Request) :
    countOf name (Entry.single r).contents = if name = r.file then 1 else 0 :=
  countOf_eq (fun _ hs => by rw [Multiset.mem_singleton.mp hs]; rfl) name

theorem enqueue_effect (h : c.InStep) (now : Nat) (r : Request) :
    ∃ x t, (c.enqueue now r).1 = { c with index := x, timeline := t } ∧
      IoScheduling.InStep c.setup.entryBound c.active.profile.bucketed x t ∧
      x.contents + t.contents = r.bare ::ₘ c.pending ∧ x.held = c.held := by
  have single : (Entry.single r).Sound c.setup.entryBound r.file r.direction :=
    Entry.sound_single rfl rfl
  have unused := h.unused
  unfold enqueue
  by_cases bucketed : c.active.profile.bucketed
  · rw [if_pos bucketed]
    obtain ⟨sound, counted, contents, held, timeline⟩ :=
      Index.insert_effect (e := .single r) h.index single (c.setup.limit_le_entryBound c.active) now
    refine ⟨_, _, rfl, ⟨⟨sound, h.timeline, fun n => ?_⟩, counted h.counted, ?_⟩, ?_, held⟩
    · exact (timeline n).trans (h.onTimeline n)
    · rw [if_pos bucketed] at unused ⊢
      exact unused
    · rw [contents, contents_single, pending, ← Multiset.singleton_add]
      abel
  · rw [if_neg bucketed]
    obtain ⟨sound, counted, contents, held, timeline⟩ :=
      Index.noteTimelineAdd_effect h.index r.file Nat.one_pos now
    have arrived := Timeline.contents_add c.timeline (.single r)
    refine ⟨_, _, rfl, ⟨⟨sound, Timeline.sound_add h.timeline single, fun n => ?_⟩,
      counted h.counted, ?_⟩, ?_, held⟩
    · rw [timeline, arrived, countOf_add, h.onTimeline, countOf_single]
      split <;> omega
    · rw [if_neg bucketed] at unused ⊢
      exact contents.trans unused
    · rw [contents, arrived, contents_single, pending, ← Multiset.singleton_add]
      abel

theorem submit_cases (c : Core) (now : Nat) (call : Submission) :
    c.submit now call = (c, .refused .shuttingDown) ∨
      (∃ l, c.submit now call =
        ({ c with nextSeq := c.nextSeq + 1, ledger := l }, .passThrough (c.stamp now call))) ∨
      ∃ l, c.submit now call = ({ ({ c with nextSeq := c.nextSeq + 1 } : Core).enqueue now
        (c.stamp now call) |>.1 with ledger := l, workSignal := true }, .queued) := by
  unfold submit
  by_cases stopping : c.stopping
  · rw [if_pos stopping]
    exact .inl rfl
  · rw [if_neg stopping]
    dsimp only
    apply Or.inr
    by_cases passing : c.active = .passThrough
    · rw [if_pos passing]
      exact .inl ⟨_, rfl⟩
    · rw [if_neg passing]
      exact .inr ⟨_, rfl⟩

theorem enqueue_frame (c : Core) (now : Nat) (r : Request) :
    ∃ x t, (c.enqueue now r).1 = { c with index := x, timeline := t } := by
  unfold enqueue
  split <;> exact ⟨_, _, rfl⟩

theorem submit_frame (c : Core) (now : Nat) (call : Submission) :
    ∃ x t l n w, (c.submit now call).1 = { c with
      index := x, timeline := t, ledger := l, nextSeq := n, workSignal := w } := by
  obtain form | ⟨l, form⟩ | ⟨l, form⟩ := c.submit_cases now call <;> rw [form]
  · exact ⟨_, _, _, _, _, rfl⟩
  · exact ⟨_, _, _, _, _, rfl⟩
  · obtain ⟨x, t, form⟩ := enqueue_frame { c with nextSeq := c.nextSeq + 1 } now (c.stamp now call)
    rw [form]
    exact ⟨_, _, _, _, _, rfl⟩

/-- The ways in which a submission can end. -/
inductive Submitted (c : Core) (now : Nat) (call : Submission) : Core × Admission → Prop where
  | refused : Submitted c now call (c, .refused .shuttingDown)
  | passed : Submitted c now call ({ c with
      nextSeq := c.nextSeq + 1
      ledger := (c.ledger.recordReceived false).recordDispatch .passThrough 1 },
      .passThrough (c.stamp now call))
  | queued {x : Index} {t : Timeline} {c' : Core} (merged : Bool) :
      c' = { c with
        nextSeq := c.nextSeq + 1
        index := x
        timeline := t
        ledger := c.ledger.recordReceived merged
        workSignal := true } →
      c'.InStep → c'.pending = c.stamp now call ::ₘ c.pending → c'.held = c.held →
      Submitted c now call (c', .queued)

theorem submit_effect (h : c.InStep) (now : Nat) (call : Submission) :
    Submitted c now call (c.submit now call) := by
  unfold submit
  split
  · exact .refused
  · dsimp only
    split
    · exact .passed
    · obtain ⟨x, t, form, step, pending, held⟩ :=
        enqueue_effect (c := { c with nextSeq := c.nextSeq + 1 }) h now (c.stamp now call)
      exact .queued (x := x) (t := t) _ (by rw [form]; rfl) (by rw [form]; exact step)
        (by rw [form]; exact pending) (by rw [form]; exact held)

theorem submit_inStep (h : c.InStep) (now : Nat) (call : Submission) :
    (c.submit now call).1.InStep := by
  have step := submit_effect h now call
  generalize c.submit now call = outcome at step ⊢
  cases step with
  | refused => exact h
  | passed => exact h
  | queued _ _ inStep => exact inStep

theorem dequeue_ok (hd : c.dequeue a = .ok (r, c')) :
    (c.active.profile.bucketed ∧
      ∃ x, c.index.withdraw a = .ok (r, x) ∧ c' = { c with index := x }) ∨
    (¬ c.active.profile.bucketed ∧
      ∃ t, c.timeline.withdraw a = some (r, t) ∧ c' = { c with
        index := if (c.index.file? a.file).isSome then c.index.noteTimelineRemove a.file 1
          else c.index
        timeline := t }) := by
  unfold dequeue at hd
  by_cases bucketed : c.active.profile.bucketed
  · rw [if_pos bucketed] at hd
    cases hw : c.index.withdraw a with
    | error fault =>
      rw [hw] at hd
      cases hd
    | ok result =>
      rw [hw] at hd
      obtain ⟨rfl, rfl⟩ := Prod.mk.inj (Except.ok.inj hd)
      exact .inl ⟨bucketed, _, rfl, rfl⟩
  · rw [if_neg bucketed] at hd
    split at hd
    · rename_i r' t hw
      obtain ⟨rfl, rfl⟩ := Prod.mk.inj (Except.ok.inj hd)
      exact .inr ⟨bucketed, t, hw, rfl⟩
    · cases hd

theorem dequeue_effect (h : c.InStep) (hd : c.dequeue a = .ok (r, c')) :
    ∃ x t, c' = { c with index := x, timeline := t } ∧
      IoScheduling.InStep c.setup.entryBound c.active.profile.bucketed x t ∧
      c.pending = r.bare ::ₘ (x.contents + t.contents) ∧ x.held = c.held := by
  have unused := h.unused
  obtain ⟨bucketed, x, hw, rfl⟩ | ⟨bucketed, t, hw, rfl⟩ := dequeue_ok hd
  · obtain ⟨sound, counted, contents, held, timeline⟩ := Index.withdraw_effect h.index hw
    refine ⟨x, c.timeline, rfl, ⟨⟨sound, h.timeline, fun n => ?_⟩, counted h.counted, ?_⟩, ?_, held⟩
    · exact (timeline n).trans (h.onTimeline n)
    · rw [if_pos bucketed] at unused ⊢
      exact unused
    · rw [pending, contents, Multiset.cons_add]
  · obtain ⟨sound, file, -⟩ := Timeline.sound_withdraw h.timeline hw
    have left := Timeline.contents_withdraw hw
    have one : ∀ n, countOf n c.timeline.contents =
        countOf n t.contents + if n = a.file then 1 else 0 := by
      intro n
      rw [left, ← Multiset.singleton_add, countOf_add, Nat.add_comm, ← file]
      exact congrArg _ (countOf_single n r)
    have some_left : 1 ≤ countOf a.file c.timeline.contents := by
      rw [one, if_pos rfl]
      exact Nat.le_add_left _ _
    have known := Index.known_of_onTimeline (h.onTimeline a.file ▸ some_left)
    obtain ⟨sound_index, counted, contents, held, timeline⟩ :=
      Index.noteTimelineRemove_effect h.index a.file Nat.one_pos
        (h.onTimeline a.file ▸ some_left)
    rw [if_pos known]
    refine ⟨_, t, rfl, ⟨⟨sound_index, sound, fun n => ?_⟩, counted h.counted, ?_⟩, ?_, held⟩
    · rw [timeline, h.onTimeline, one]
      split <;> omega
    · rw [if_neg bucketed] at unused ⊢
      exact contents.trans unused
    · rw [pending, contents, left, Multiset.add_cons]

theorem recordDispatch_effect (h : c.InStep) (now : Nat) (file : String) (e : Entry)
    (k : PolicyKind) (inQuantum : Bool) :
    ∃ x, c.recordDispatch now file e k inQuantum = { c with
        index := x
        ledger := c.ledger.recordDispatch k e.count
        outstanding := if k.profile.synchronous then c.outstanding + e.count else c.outstanding } ∧
      IoScheduling.InStep c.setup.entryBound c.active.profile.bucketed x c.timeline ∧
      x.contents = c.index.contents ∧
      x.held = c.held + records e.requests now inQuantum k.profile.synchronous := by
  obtain ⟨sound, counted, contents, -, held, timeline⟩ :=
    Index.recordDispatch_effect h.index file e now inQuantum k.profile.synchronous
  exact ⟨_, rfl, h.replace sound counted contents timeline, contents, held⟩

/-- A dispatch moves the requests of one entry from the pending ones to those handed out. -/
structure Dispatched (c c' : Core) (now : Nat) (requests : List Request) (k : PolicyKind)
    (inQuantum : Bool) : Prop where
  frame : ∃ x t, c' = { c with
    index := x
    timeline := t
    ledger := c.ledger.recordDispatch k requests.length
    outstanding := if k.profile.synchronous then c.outstanding + requests.length
      else c.outstanding }
  inStep : c'.InStep
  pending : c.pending = bareBag requests + c'.pending
  held : c'.held = c.held + records requests now inQuantum k.profile.synchronous

theorem dispatch?_effect {file : String} {d : Direction} {i : Nat} {k : PolicyKind}
    {inQuantum : Bool} {requests : List Request} (h : c.InStep)
    (hd : c.dispatch? now file d i k inQuantum = some (requests, c')) :
    Dispatched c c' now requests k inQuantum := by
  obtain ⟨⟨e, index⟩, he, same⟩ := Option.map_eq_some_iff.mp hd
  obtain ⟨rfl, rfl⟩ := Prod.mk.inj same
  obtain ⟨step, contents, held⟩ := IoScheduling.InStep.detach? h he
  obtain ⟨x, form, after, same, records⟩ :=
    recordDispatch_effect (c := { c with index := index }) step now file e k inQuantum
  rw [form]
  refine ⟨⟨x, c.timeline, ?_⟩, after, ?_, ?_⟩
  · rw [Entry.length_requests]
  · change c.pending = e.contents + (x.contents + c.timeline.contents)
    rw [same, ← add_assoc, ← contents]
    rfl
  · change x.held = c.held + _
    rw [records]
    exact congrArg (· + _) held

theorem dispatchHead?_effect {k : PolicyKind} {requests : List Request} (h : c.InStep)
    (hd : c.dispatchHead? now k = some (requests, c')) :
    Dispatched c c' now requests k false := by
  obtain ⟨⟨e, timeline⟩, he, same⟩ := Option.map_eq_some_iff.mp hd
  obtain ⟨rfl, rfl⟩ := Prod.mk.inj same
  obtain ⟨step, contents, left, held⟩ := IoScheduling.InStep.pop? h he
  obtain ⟨x, form, after, same, records⟩ :=
    recordDispatch_effect (c := { c with
      index := c.index.noteTimelineRemove e.file e.count, timeline := timeline })
      step now e.file e k false
  rw [form]
  refine ⟨⟨x, timeline, ?_⟩, after, ?_, ?_⟩
  · rw [Entry.length_requests]
  · change c.pending = e.contents + (x.contents + timeline.contents)
    rw [same, contents, pending, left, add_left_comm]
  · change x.held = c.held + _
    rw [records]
    exact congrArg (· + _) held

theorem dispatch?_ne_nil {file : String} {d : Direction} {i : Nat} {k : PolicyKind}
    {inQuantum : Bool} {requests : List Request}
    (hd : c.dispatch? now file d i k inQuantum = some (requests, c')) : requests ≠ [] := by
  obtain ⟨⟨e, _⟩, -, same⟩ := Option.map_eq_some_iff.mp hd
  obtain ⟨rfl, -⟩ := Prod.mk.inj same
  exact e.requests_ne_nil

theorem dispatchHead?_ne_nil {k : PolicyKind} {requests : List Request}
    (hd : c.dispatchHead? now k = some (requests, c')) : requests ≠ [] := by
  obtain ⟨⟨e, _⟩, -, same⟩ := Option.map_eq_some_iff.mp hd
  obtain ⟨rfl, -⟩ := Prod.mk.inj same
  exact e.requests_ne_nil

/-- What an acknowledgment does: it takes back a request handed out, or finds none. -/
inductive Completed (c : Core) (a : Address) : Core → Prop where
  | released {h : HandedOut} {x : Index} {c' : Core} (signal : Bool) :
      c' = { c with
        index := x
        ledger := c.ledger.recordRelease a.length
        periodRequests := c.periodRequests + 1
        periodBytes := c.periodBytes + a.length
        outstanding := if h.synchronous then c.outstanding - 1 else c.outstanding
        ackSignal := signal } →
      c'.InStep → c'.pending = c.pending → c.held = h ::ₘ c'.held → Completed c a c'
  | unknown (ledger : Ledger) : ledger = c.ledger ∨ ledger = c.ledger.recordNotFound →
      Completed c a { c with ledger := ledger }

theorem noteGrantRelease_effect (h : c.InStep) (now : Nat) (a : Address) :
    ∃ x, c.noteGrantRelease now a = { c with index := x } ∧
      IoScheduling.InStep c.setup.entryBound c.active.profile.bucketed x c.timeline ∧
      x.contents = c.index.contents ∧ x.held = c.held := by
  unfold noteGrantRelease
  split
  · exact ⟨c.index, rfl, h, rfl, rfl⟩
  · rename_i f hf
    have alike := FileState.alike_modifyLane f a.direction
      (g := fun l => { l with grant := l.grant.noteRelease now }) (fun _ => ⟨rfl, rfl, rfl, rfl⟩)
    rw [← Index.fileOf_eq hf] at alike ⊢
    obtain ⟨sound, counted, contents, -, held, timeline⟩ := Index.alike_effect h.index alike
    exact ⟨_, rfl, h.replace sound counted contents timeline, contents, held⟩

def settledIndex (c : Core) (now : Nat) (a : Address) (h : HandedOut) (x : Index) : Index :=
  (if h.inQuantum then ({ c with index := x } : Core).noteGrantRelease now a
    else { c with index := x }).index

theorem complete_cases (c : Core) (now : Nat) (a : Address) :
    (∃ h x signal, c.index.release a = .ok (h, x) ∧ c.complete now a = ({ c with
      index := c.settledIndex now a h x
      ledger := c.ledger.recordRelease a.length
      periodRequests := c.periodRequests + 1
      periodBytes := c.periodBytes + a.length
      outstanding := if h.synchronous then c.outstanding - 1 else c.outstanding
      ackSignal := signal }, .ok ())) ∨
    ∃ fault, c.index.release a = .error fault ∧ c.complete now a =
      if c.active = .passThrough then (c, .ok ())
      else ({ c with ledger := c.ledger.recordNotFound }, .error fault) := by
  unfold complete
  cases hr : c.index.release a with
  | error fault => exact .inr ⟨fault, rfl, rfl⟩
  | ok result =>
    obtain ⟨h, x⟩ := result
    have form : (if h.inQuantum then ({ c with index := x } : Core).noteGrantRelease now a
        else { c with index := x }) = { c with index := c.settledIndex now a h x } := by
      unfold settledIndex noteGrantRelease
      by_cases granted : h.inQuantum
      · rw [if_pos granted]
        split <;> rfl
      · rw [if_neg granted]
    dsimp only
    rw [form]
    by_cases sync : h.synchronous
    · rw [if_pos sync]
      exact .inl ⟨h, x, _, rfl, by rw [if_pos sync]; rfl⟩
    · rw [if_neg sync]
      exact .inl ⟨h, x, c.ackSignal, rfl, by rw [if_neg sync]; rfl⟩

theorem settledIndex_effect {h : HandedOut} {x : Index} (hc : c.InStep)
    (hr : c.index.release a = .ok (h, x)) (now : Nat) :
    IoScheduling.InStep c.setup.entryBound c.active.profile.bucketed (c.settledIndex now a h x)
        c.timeline ∧
      (c.settledIndex now a h x).contents = c.index.contents ∧
      c.held = h ::ₘ (c.settledIndex now a h x).held := by
  obtain ⟨sound, counted, contents, -, held, timeline⟩ := Index.release_effect hc.index hr
  have step := hc.replace sound counted contents timeline
  unfold settledIndex
  split
  · obtain ⟨y, form, step, same, holds⟩ :=
      noteGrantRelease_effect (c := { c with index := x }) step now a
    rw [form]
    exact ⟨step, same.trans contents, held.trans (congrArg _ holds.symm)⟩
  · exact ⟨step, contents, held⟩

theorem complete_effect (h : c.InStep) (now : Nat) (a : Address) :
    Completed c a (c.complete now a).1 := by
  obtain ⟨r, x, signal, hr, form⟩ | ⟨fault, -, form⟩ := c.complete_cases now a
  · obtain ⟨step, contents, held⟩ := settledIndex_effect h hr now
    rw [form]
    exact .released signal rfl step (congrArg (· + _) contents) held
  · rw [form]
    split
    · exact .unknown c.ledger (Or.inl rfl)
    · exact .unknown _ (Or.inr rfl)

theorem complete_inStep (h : c.InStep) (now : Nat) (a : Address) :
    (c.complete now a).1.InStep := by
  have step := complete_effect h now a
  generalize (c.complete now a).1 = d at step ⊢
  cases step with
  | released _ _ inStep => exact inStep
  | unknown => exact h

theorem resetStatistics_effect (h : c.InStep) :
    c.resetStatistics.InStep ∧ c.resetStatistics.pending = c.pending ∧
      c.resetStatistics.held = c.held := by
  obtain ⟨sound, counted, contents, -, held, timeline⟩ :=
    Index.mapAll_effect h.index FileState.alike_resetTallies fun _ => rfl
  exact ⟨h.replace sound counted contents timeline, congrArg (· + _) contents, held⟩

end Core

end IoScheduling
