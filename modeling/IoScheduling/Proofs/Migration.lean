import IoScheduling.Core.Migration
import IoScheduling.Proofs.Cores

/-! # Migration between the indexes

A migration empties one index into the other, entry by entry. On the way the counts of pending
requests stay as they are and only the timeline counts of the files move, so the two indexes are in
step again when the last entry has gone over. -/
namespace IoScheduling
namespace Core

variable {c : Core}

theorem foldl_shelve_effect {bound : Nat} (es : List Entry) {c : Core}
    (h : Tracks bound c.index c.timeline)
    (he : ∀ e ∈ es, e.Sound bound e.file e.direction ∧ (c.index.file? e.file).isSome) :
    ∃ x t, es.foldl shelve c = { c with index := x, timeline := t } ∧ Tracks bound x t ∧
      x.contents = c.index.contents ∧ x.held = c.index.held ∧ x.counts = c.index.counts ∧
      t.contents = contents es + c.timeline.contents := by
  induction es generalizing c with
  | nil => exact ⟨c.index, c.timeline, rfl, h, rfl, rfl, rfl, (zero_add _).symm⟩
  | cons e es ih =>
    obtain ⟨sound, known⟩ := he e List.mem_cons_self
    obtain ⟨index, contents', held, counts, files, timeline⟩ :=
      Index.moveTimelineCount_effect h.index known (· + e.count)
    have arrived := Timeline.contents_add c.timeline e
    have step : Tracks bound (c.shelve e).index (c.shelve e).timeline := by
      refine ⟨index, Timeline.sound_add h.timeline sound, fun n => ?_⟩
      change (c.index.moveTimelineCount e.file _).onTimeline n =
        countOf n (c.timeline.add e).1.contents
      rw [timeline, arrived, countOf_add, countOf_entry sound, h.onTimeline]
      split <;> omega
    obtain ⟨x, t, form, tracks, hc, hh, hk, ht⟩ := ih step fun o ho => by
      obtain ⟨so, ko⟩ := he o (List.mem_cons_of_mem e ho)
      exact ⟨so, (files o.file).trans ko⟩
    refine ⟨x, t, form, tracks, hc.trans contents', hh.trans held, hk.trans counts, ?_⟩
    rw [ht, contents_cons]
    change _ + (c.timeline.add e).1.contents = _
    rw [arrived, ← add_assoc, add_comm (contents es)]

theorem foldl_adopt_effect {bound limit : Nat} (es rest : List Entry) {c : Core}
    (h : c.index.Sound bound) (hl : limit ≤ bound)
    (he : ∀ e ∈ es, e.Sound bound e.file e.direction)
    (ht : ∀ n, c.index.onTimeline n = countOf n (contents (es ++ rest))) :
    ∃ x, es.foldl (adopt limit) c = { c with index := x } ∧ x.Sound bound ∧
      x.contents = c.index.contents + contents es ∧ x.held = c.index.held ∧
      x.counts = c.index.counts ∧ ∀ n, x.onTimeline n = countOf n (contents rest) := by
  induction es generalizing c with
  | nil => exact ⟨c.index, rfl, h, (add_zero _).symm, rfl, rfl, ht⟩
  | cons e es ih =>
    have sound := he e List.mem_cons_self
    have parts : ∀ n, c.index.onTimeline n =
        (if n = e.file then e.count else 0) + countOf n (contents (es ++ rest)) := by
      intro n
      rw [ht, List.cons_append, contents_cons, countOf_add, countOf_entry sound]
    -- What has not come back yet is still counted, so the file is known and `· - e.count` is exact.
    have known : (c.index.file? e.file).isSome := by
      refine Index.known_of_onTimeline ?_
      rw [parts, if_pos rfl]
      exact Nat.add_pos_left e.count_pos _
    obtain ⟨index, contents', held, counts, -, timeline⟩ :=
      Index.moveTimelineCount_effect h known (· - e.count)
    obtain ⟨index', contents'', held', counts', timeline'⟩ := Index.adopt_effect index sound hl
    obtain ⟨x, form, sx, hc, hh, hk, hx⟩ := ih (c := c.adopt limit e) index'
      (fun o ho => he o (List.mem_cons_of_mem e ho)) fun n => by
        change ((c.index.moveTimelineCount e.file _).adopt e limit).1.onTimeline n = _
        rw [timeline', timeline, parts]
        split <;> omega
    refine ⟨x, form, sx, ?_, hh.trans (held'.trans held), hk.trans (counts'.trans counts), hx⟩
    rw [hc, contents_cons, ← add_assoc]
    change ((c.index.moveTimelineCount e.file _).adopt e limit).1.contents + _ = _
    rw [contents'', contents']

theorem moveToTimeline_effect {bound : Nat} (h : Tracks bound c.index c.timeline) :
    ∃ x t, c.moveToTimeline = { c with index := x, timeline := t } ∧ Tracks bound x t ∧
      x.contents = 0 ∧ t.contents = c.index.contents + c.timeline.contents ∧
      x.held = c.index.held ∧ x.counts = c.index.counts := by
  obtain ⟨sound, empty, held, counts, files, timeline⟩ := Index.drain_effect h.index
  have start : Tracks bound c.index.drain.2 c.timeline :=
    ⟨sound, h.timeline, fun n => (timeline n).trans (h.onTimeline n)⟩
  obtain ⟨x, t, form, tracks, hc, hh, hk, ht⟩ :=
    foldl_shelve_effect c.index.drain.1 (c := { c with index := c.index.drain.2 }) start
      fun e he => by
        obtain ⟨se, known⟩ := Index.sound_of_mem_drained h.index he
        exact ⟨se, (files e.file).trans known⟩
  refine ⟨x, t, form, tracks, hc.trans empty, ?_, hh.trans held, hk.trans counts⟩
  rw [ht, Index.contents_drained]

theorem moveToIndex_effect {bound limit : Nat} (h : Tracks bound c.index c.timeline)
    (hl : limit ≤ bound) :
    ∃ x t, c.moveToIndex limit = { c with index := x, timeline := t } ∧ Tracks bound x t ∧
      x.contents = c.index.contents + c.timeline.contents ∧ t.contents = 0 ∧
      x.held = c.index.held ∧ x.counts = c.index.counts := by
  obtain ⟨x, form, sound, hc, hh, hk, timeline⟩ :=
    foldl_adopt_effect c.timeline.entries [] (c := { c with timeline := c.timeline.drain.2 })
      h.index hl h.timeline.entries fun n => by
        rw [List.append_nil]
        exact h.onTimeline n
  exact ⟨x, c.timeline.drain.2, form, ⟨sound, Timeline.sound_drain h.timeline, timeline⟩, hc, rfl,
    hh, hk⟩

theorem transfer_effect (h : c.InStep) (k : PolicyKind) :
    ∃ x t, c.transfer k = { c with index := x, timeline := t } ∧
      IoScheduling.InStep c.setup.entryBound k.profile.bucketed x t ∧
      x.contents + t.contents = c.pending ∧ x.held = c.held := by
  have limit : max (c.setup.limit k) 1 ≤ c.setup.entryBound :=
    max_le (c.setup.limit_le_entryBound k) c.setup.one_le_entryBound
  let t := c.timeline.configure (c.setup.order k) (c.setup.limit k)
  have start : Tracks c.setup.entryBound c.index t :=
    ⟨h.index, Timeline.sound_configure h.timeline _ limit, h.onTimeline⟩
  have unused := h.unused
  unfold transfer
  dsimp only
  split
  · rename_i old new
    rw [if_pos old] at unused
    refine ⟨c.index, t, rfl, ⟨start, h.counted, ?_⟩, rfl, rfl⟩
    rwa [if_pos new]
  · rename_i old new
    obtain ⟨x, t', form, tracks, hx, ht, held, counts⟩ :=
      moveToTimeline_effect (c := { c with timeline := t }) start
    have same : x.contents + t'.contents = c.pending := by rw [hx, ht, zero_add]; rfl
    refine ⟨x, t', form, ⟨tracks, start.counted_moved h.counted tracks counts same, ?_⟩, same, held⟩
    rwa [if_neg (by rw [new]; decide)]
  · rename_i old new
    obtain ⟨x, t', form, tracks, hx, ht, held, counts⟩ :=
      moveToIndex_effect (c := { c with timeline := t }) start (c.setup.limit_le_entryBound k)
    have same : x.contents + t'.contents = c.pending := by rw [hx, ht, add_zero]; rfl
    refine ⟨x, t', form, ⟨tracks, start.counted_moved h.counted tracks counts same, ?_⟩, same, held⟩
    rwa [if_pos new]
  · rename_i old new
    rw [if_neg (by rw [old]; decide)] at unused
    split
    · refine ⟨c.index, t.reorder, rfl, ⟨⟨h.index, Timeline.sound_reorder start.timeline, fun n => ?_⟩,
        h.counted, ?_⟩, ?_, rfl⟩
      · rw [Timeline.contents_reorder]
        exact h.onTimeline n
      · rwa [if_neg (by rw [new]; decide)]
      · rw [Timeline.contents_reorder]
        rfl
    · refine ⟨c.index, t, rfl, ⟨start, h.counted, ?_⟩, rfl, rfl⟩
      rwa [if_neg (by rw [new]; decide)]

/-- A migration moves pending requests between the indexes, and no request comes or goes. -/
theorem migrate_effect (h : c.InStep) (k : PolicyKind) :
    (∃ x t, c.migrate k = { c with
      index := x
      timeline := t
      active := k
      epoch := c.epoch + 1
      ledger := c.ledger.recordMigration
      workSignal := true }) ∧
      (c.migrate k).InStep ∧ (c.migrate k).pending = c.pending ∧ (c.migrate k).held = c.held := by
  obtain ⟨x, t, form, step, pending, held⟩ := transfer_effect h k
  have whole : c.migrate k = { c with
      index := x, timeline := t, active := k, epoch := c.epoch + 1,
      ledger := c.ledger.recordMigration, workSignal := true } := by
    unfold migrate
    rw [form]
    rfl
  rw [whole]
  exact ⟨⟨x, t, rfl⟩, step, pending, held⟩

end Core

end IoScheduling
