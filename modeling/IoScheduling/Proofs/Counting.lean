import IoScheduling.Proofs.Runs
import IoScheduling.Service.Checksum

/-! # The counters are exact

Policies skip buckets, stop and go idle by what counters say, and a counter that had run away from
what it counts would strand requests. Every counter is exact after every run, so none of them is
ever asked to go below zero. The bytes of a lane are counted in a word, so of them this holds as long
as they fit in one. -/
namespace IoScheduling

namespace Core

/-- Every counter says how many requests, files or bytes there are, and one index is empty. -/
structure Exact (c : Core) : Prop where
  requests : c.counts.requests = c.inLanes.length + c.onTimeline.length
  files : c.counts.files = c.index.files.countP fun f => 0 < f.pending
  buckets : ∀ a ∈ c.index.buckets,
    a.2.pending = (a.2.files.map fun f => f.reads.requests + f.writes.requests).sum
  laneRequests : ∀ f ∈ c.index.files, ∀ d,
    (f.lane d).requests = ((f.lane d).entries.flatMap Entry.requests).length
  laneBytes : ∀ f ∈ c.index.files, ∀ d,
    (f.lane d).bytes = bytesOf ((f.lane d).entries.flatMap Entry.requests)
  laneBytesExact : ∀ f ∈ c.index.files, ∀ d, (f.lane d).Fits →
    (f.lane d).bytes = sumOf Request.length ((f.lane d).entries.flatMap Entry.requests)
  timelineOfFile : ∀ f ∈ c.index.files,
    f.onTimeline = c.onTimeline.countP fun r => r.file = f.file
  timelineFiles : ∀ r ∈ c.onTimeline, ∃ f ∈ c.index.files, f.file = r.file
  timelineRequests : c.timeline.requests = c.onTimeline.length
  timelineUnused : c.active.profile.bucketed → c.timeline.entries = []
  lanesUnused : c.active.profile.bucketed = false → ∀ f ∈ c.index.files, ∀ d,
    (f.lane d).entries = []

/-- Whatever is taken away is covered by the counters it is taken from. -/
structure Covered (c : Core) : Prop where
  detach : ∀ file d i e x, c.index.detach? file d i = some (e, x) →
    e.count ≤ ((c.index.fileOf file).lane d).requests ∧
    (((c.index.fileOf file).lane d).Fits → e.bytes ≤ ((c.index.fileOf file).lane d).bytes) ∧
    e.count ≤ (c.index.bucketOf file).pending ∧ e.count ≤ c.counts.requests ∧ 1 ≤ c.counts.files
  withdraw : ∀ a r x, c.index.withdraw a = .ok (r, x) →
    1 ≤ ((c.index.fileOf a.file).lane a.direction).requests ∧
    (((c.index.fileOf a.file).lane a.direction).Fits →
      r.length ≤ ((c.index.fileOf a.file).lane a.direction).bytes) ∧
    1 ≤ (c.index.bucketOf a.file).pending ∧ 1 ≤ c.counts.requests ∧ 1 ≤ c.counts.files
  pop : ∀ e t, c.timeline.pop? = some (e, t) →
    e.count ≤ c.timeline.requests ∧ e.count ≤ c.index.onTimeline e.file ∧
    e.count ≤ c.counts.requests ∧ 1 ≤ c.counts.files
  withdrawTimeline : ∀ a r t, c.timeline.withdraw a = some (r, t) →
    1 ≤ c.timeline.requests ∧ 1 ≤ c.index.onTimeline a.file ∧
    1 ≤ c.counts.requests ∧ 1 ≤ c.counts.files
  /-- An entry that comes back when policy `k` takes over, after those in front of it. -/
  comeBack : ∀ k front e back, c.timeline.entries = front ++ e :: back →
    let timeline := (c.timeline.configure (c.setup.order k) (c.setup.limit k)).drain.2
    e.count ≤ (front.foldl (adopt (c.setup.limit k)) { c with timeline := timeline }).index.onTimeline
      e.file

variable {c : Core}

theorem sum_live (fs : List FileState) :
    (fs.map FileState.live).sum = fs.countP fun f => 0 < f.pending := by
  induction fs with
  | nil => rfl
  | cons f fs ih =>
    rw [List.map_cons, List.sum_cons, ih, List.countP_cons, Nat.add_comm]
    congr 1
    by_cases h : f.pending = 0
    · rw [FileState.live_eq_zero h, if_neg (by simp [h])]
    · rw [FileState.live_eq_one h, if_pos (by simp [Nat.pos_of_ne_zero h])]

theorem lanes_eq_nil {x : Index} (h : x.contents = 0) {f : FileState} (hf : f ∈ x.files)
    (d : Direction) : (f.lane d).entries = [] := by
  have all : x.entries = [] := entries_eq_nil (x.contents_entries.trans h)
  have both := List.append_eq_nil_iff.mp (List.flatMap_eq_nil_iff.mp all f hf)
  cases d with
  | read => exact both.1
  | write => exact both.2

theorem InStep.lane_sound (h : c.InStep) {f : FileState} (hf : f ∈ c.index.files)
    (d : Direction) : (f.lane d).Sound c.setup.entryBound f.file d :=
  (h.index.stored hf).lane d

theorem InStep.onTimeline_eq (h : c.InStep) (name : String) :
    c.index.onTimeline name = c.onTimeline.countP fun r => r.file = name :=
  (h.onTimeline name).trans (countP_bareBag (fun _ => Iff.rfl) _)

theorem InStep.exact (h : c.InStep) : c.Exact where
  requests := by
    have requests : c.counts.requests = c.pending.card := h.requests_eq
    rw [requests, pending, Multiset.card_add, ← bareBag_inLanes, ← bareBag_onTimeline, card_bareBag,
      card_bareBag]
  files := h.counted.files.trans (sum_live _)
  buckets := by
    intro a ha
    have sum := h.index.pending a.1
    rwa [Index.bucket_of_mem h.index.placed ha] at sum
  laneRequests := by
    intro f hf d
    exact (h.lane_sound hf d).requests_eq.trans (card_bareBag _)
  laneBytes := by
    intro f hf d
    exact (h.lane_sound hf d).bytes_exact
  laneBytesExact := by
    intro f hf d fits
    exact (h.lane_sound hf d).bytes_exact.trans (wrapWord_eq fits)
  timelineOfFile := by
    intro f hf
    rw [← h.onTimeline_eq, Index.onTimeline, Index.fileOf_of_mem h.index.placed hf]
  timelineFiles := by
    intro r hr
    have pos : 0 < c.index.onTimeline r.file := by
      rw [h.onTimeline_eq]
      exact List.countP_pos_iff.mpr ⟨r, hr, by simp⟩
    obtain ⟨f, hf⟩ := Option.isSome_iff_exists.mp (Index.known_of_onTimeline pos)
    have name := (Keyed.mem_of_find? hf).2
    exact ⟨f, (Index.mem_files h.index.placed).mpr (name ▸ hf), name⟩
  timelineRequests := h.timeline.requests_eq.trans (card_bareBag _)
  timelineUnused := by
    intro used
    have unused := h.unused
    rw [if_pos used] at unused
    exact entries_eq_nil unused
  lanesUnused := by
    intro used f hf d
    have unused := h.unused
    rw [if_neg (by rw [used]; decide)] at unused
    exact lanes_eq_nil unused hf d

theorem InStep.counts_cover (h : c.InStep) {n : Nat} {name : String} (pos : 0 < n)
    (hn : n ≤ (c.index.fileOf name).pending) : n ≤ c.counts.requests ∧ 1 ≤ c.counts.files := by
  have requests := h.counted.pending_le h.index.placed name
  have files := h.counted.live_le h.index.placed name
  have live : (c.index.fileOf name).live = 1 := FileState.live_eq_one (by omega)
  exact ⟨hn.trans requests, live ▸ files⟩

theorem InStep.lane_covers (h : c.InStep) {n : Nat} {name : String} {d : Direction} (pos : 0 < n)
    (hn : n ≤ ((c.index.fileOf name).lane d).requests) :
    n ≤ (c.index.bucketOf name).pending ∧ n ≤ c.counts.requests ∧ 1 ≤ c.counts.files := by
  have inLanes : n ≤ (c.index.fileOf name).inLanes := by
    cases d with
    | read => exact hn.trans (Nat.le_add_right _ _)
    | write => exact hn.trans (Nat.le_add_left _ _)
  have pending : n ≤ (c.index.fileOf name).pending := inLanes.trans (Nat.le_add_right _ _)
  exact ⟨inLanes.trans (h.index.inLanes_le name), h.counts_cover pos pending⟩

theorem InStep.covered (h : c.InStep) : c.Covered where
  detach := by
    intro file d i e x hd
    obtain ⟨f, counts, -, hf, -⟩ := Index.detach?_some hd
    obtain ⟨l, hl, -, -⟩ := FileState.detach?_some hf
    have sound := (h.index.file file).lane d
    obtain ⟨-, requests⟩ := Lane.sound_detach? sound hl
    have enough : e.count ≤ ((c.index.fileOf file).lane d).requests := by omega
    refine ⟨enough, fun fits => ?_, h.lane_covers e.count_pos enough⟩
    rw [bytes_eq_contents]
    exact (wrapWord_le _).trans (sound.bytes_le fits (Lane.contents_detach? hl))
  withdraw := by
    intro a r x hw
    obtain ⟨f, counts, hf, -⟩ := Index.withdraw_ok hw
    obtain ⟨l, hl, -, -⟩ := FileState.withdraw?_some hf
    have sound := (h.index.file a.file).lane a.direction
    obtain ⟨-, requests⟩ := Lane.sound_withdraw? sound hl
    have enough : 1 ≤ ((c.index.fileOf a.file).lane a.direction).requests := by omega
    refine ⟨enough, fun fits => ?_, h.lane_covers Nat.one_pos enough⟩
    have parts := (Lane.contents_withdraw? hl).trans (Multiset.singleton_add _ _).symm
    have part := sound.bytes_le fits parts
    rwa [Multiset.map_singleton, Multiset.sum_singleton, Request.length_bare] at part
  pop := by
    intro e t hp
    obtain ⟨-, entry, requests⟩ := Timeline.sound_pop? h.timeline hp
    have enough : e.count ≤ c.index.onTimeline e.file := by
      rw [h.onTimeline, Timeline.contents_pop? hp, countOf_add, countOf_entry entry, if_pos rfl]
      exact Nat.le_add_right _ _
    exact ⟨by omega, enough, h.counts_cover e.count_pos (enough.trans (Nat.le_add_left _ _))⟩
  withdrawTimeline := by
    intro a r t hw
    obtain ⟨-, file, requests⟩ := Timeline.sound_withdraw h.timeline hw
    have enough : 1 ≤ c.index.onTimeline a.file := by
      rw [h.onTimeline, Timeline.contents_withdraw hw]
      exact Multiset.countP_pos.mpr ⟨r.bare, Multiset.mem_cons_self _ _, file⟩
    exact ⟨by omega, enough, h.counts_cover Nat.one_pos (enough.trans (Nat.le_add_left _ _))⟩
  comeBack := by
    intro k front e back split timeline
    have sound := h.timeline.entries
    -- After the entries in front have come back, `e :: back` is what the files still count.
    obtain ⟨x, form, -, -, -, -, rest⟩ := foldl_adopt_effect front (e :: back)
      (c := { c with timeline := timeline }) h.index (c.setup.limit_le_entryBound k)
      (fun o ho => sound o (by simp [split, ho])) fun n => by
        rw [← split]
        exact h.onTimeline n
    rw [form]
    change e.count ≤ x.onTimeline e.file
    rw [rest, contents_cons, countOf_add, countOf_entry (sound e (by simp [split])), if_pos rfl]
    exact Nat.le_add_right _ _

end Core

namespace System

/-- After every run all counters are exact, and no subtraction from them goes below zero; of the
bytes of a lane that is so as long as they fit in a word. -/
theorem run_counts_exactly (setup : Setup) (actions : List Action) :
    (run setup actions).core.Exact ∧ (run setup actions).core.Covered :=
  ⟨(run_inStep setup actions).exact, (run_inStep setup actions).covered⟩

/-- Two neighbours merge and a third request waits beside them; their bytes fit in a word. -/
theorem counts_below_word :
    let setup : Setup := .of Config.defaults .one 1
    let actions : List Action :=
      [.submit 0 ⟨"f", .read, 0, 10, 0, 0⟩, .submit 0 ⟨"f", .read, 10, 20, 0, 0⟩,
        .submit 0 ⟨"f", .read, 100, 5, 0, 0⟩]
    let index := (run setup actions).core.index
    let l := (index.fileOf "f").lane .read
    l.Fits ∧ l.bytes = 35 ∧ ∃ e x, index.detach? "f" .read 0 = some (e, x) ∧
      e.count = 2 ∧ e.bytes = 30 ∧ e.bytes ≤ l.bytes := by
  intro setup actions index l
  obtain ⟨counters, covered⟩ := run_counts_exactly setup actions
  have fits : l.Fits := by
    unfold Lane.Fits
    decide +kernel
  have stored : index.fileOf "f" ∈ index.files := by decide +kernel
  have bytes : l.bytes = 35 :=
    (counters.laneBytesExact _ stored .read fits).trans (by decide +kernel)
  have taken : (index.detach? "f" .read 0).map (fun p => (p.1.count, p.1.bytes)) = some (2, 30) := by
    decide +kernel
  obtain ⟨⟨e, x⟩, found, both⟩ := Option.map_eq_some_iff.mp taken
  obtain ⟨count, sum⟩ := Prod.mk.inj both
  exact ⟨fits, bytes, e, x, found, count, sum, (covered.detach "f" .read 0 e x found).2.1 fits⟩

end System

end IoScheduling
