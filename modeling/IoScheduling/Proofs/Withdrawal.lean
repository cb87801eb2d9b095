import IoScheduling.Proofs.Conservation
import IoScheduling.Proofs.Records
import IoScheduling.Proofs.Splitting
import IoScheduling.Proofs.Structure

/-! # Withdrawals

A withdrawal looks through a line of entries, a lane or the timeline, for the first request of an
address. If there is one, it leaves, and the rest of its entry falls into maximal runs; otherwise
nothing changes. The two indexes differ in where the runs go: in a lane each one to its own offset,
on the timeline all to the place of the entry. -/
namespace IoScheduling

/-- The runs hold the requests in their order, none of them has a gap, and there is a gap between
any two, so that no two could be one. -/
structure MaximalRuns (bound : Nat) (file : String) (d : Direction) (factor : Nat)
    (requests : List Request) (runs : List Entry) : Prop where
  whole : (runs.flatMap Entry.requests).map Request.bare = requests.map Request.bare
  gapless : ∀ run ∈ runs, run.WellFormed bound file d
  ascending : runs.Pairwise fun a b => a.offset < b.offset
  apart : runs.Pairwise fun a b => a.stop < b.offset
  factor_eq : ∀ run ∈ runs, run.factor = factor

namespace Entry

variable {bound : Nat} {file : String} {d : Direction} {e : Entry}

theorem Sound.maximalRuns {k : Nat} {q : Request} {runs : List Entry} (h : e.Sound bound file d)
    (hx : e.extract k = some (q, runs)) :
    MaximalRuns bound file d e.factor (e.requests.eraseIdx k) runs := by
  have sound := sound_extract h hx
  obtain ⟨r, hr, -, rfl⟩ := extract_some hx
  have sub : (e.requests.eraseIdx k).Sublist e.requests := List.eraseIdx_sublist _ _
  have word : ∀ s ∈ e.requests.eraseIdx k, s.offset ≤ maxWord := by
    cases e with
    | single s =>
      have lt := (List.getElem?_eq_some_iff.mp hr).1
      rw [requests, List.length_singleton, Nat.lt_one_iff] at lt
      rw [lt]
      exact fun _ hs => absurd hs List.not_mem_nil
    | aggregate head m => exact fun s hs => h.headed.2.2.2 s (sub.subset hs)
  obtain ⟨parts, same, division⟩ := regroup_divides e.factor (h.sorted.sublist sub)
  have split := division.split e.factor (h.sorted.sublist sub) word
  have forward : ∀ run ∈ parts.map (ofRun e.factor), run.offset ≤ run.stop :=
    List.forall_mem_map.mpr fun m hm =>
      offset_le_stop_ofRun e.factor fun s hs => word s ((division.sublist hm).subset hs)
  rw [same] at sound ⊢
  constructor
  case whole => exact split.whole
  case gapless => exact fun run hrun => (sound run hrun).wellFormed
  case factor_eq => exact split.factor_eq
  case apart => exact split.apart
  case ascending => exact split.apart.imp_of_mem fun ha _ lt => (forward _ ha).trans_lt lt

end Entry

/-- The first request of an address in a line of entries: `r`, behind `before` and in front of
`after` in the entry `e`, which stands between `front` and `back`. -/
structure FirstOf (a : Address) (line front : List Entry) (e : Entry) (back : List Entry)
    (before : List Request) (r : Request) (after : List Request) : Prop where
  line_eq : line = front ++ e :: back
  requests_eq : e.requests = before ++ r :: after
  address_eq : r.address = a
  entries_before : ∀ o ∈ front, ∀ q ∈ o.requests, q.address ≠ a
  requests_before : ∀ q ∈ before, q.address ≠ a

section

variable {a : Address} {line front back : List Entry} {e : Entry} {before after : List Request}
  {r : Request}

theorem exists_first {α : Type} {p : α → Bool} {xs : List α} {i : Nat}
    (h : xs.findIdx? p = some i) : ∃ front x back, xs = front ++ x :: back ∧ front.length = i ∧
      p x ∧ ∀ y ∈ front, p y = false := by
  obtain ⟨lt, holds, fails⟩ := List.findIdx?_eq_some_iff_getElem.mp h
  generalize found : xs[i] = x at holds
  obtain ⟨front, back, rfl, rfl⟩ := exists_split (List.getElem?_eq_some_iff.mpr ⟨lt, found⟩)
  refine ⟨front, x, back, rfl, rfl, holds, ?_⟩
  intro y hy
  obtain ⟨j, hj, rfl⟩ := List.getElem_of_mem hy
  have fail := fails j hj
  rw [List.getElem_append_left hj] at fail
  exact Bool.eq_false_iff.mpr fail

namespace Entry

theorem position_none (h : e.position a = none) (files : ∀ r ∈ e.requests, r.file = a.file) :
    ∀ r ∈ e.requests, r.address ≠ a := by
  intro r hr same
  have fails := List.findIdx?_eq_none_iff.mp h r hr
  rw [(Request.matchesRange_iff (files r hr)).mpr same] at fails
  cases fails

theorem position_some {k : Nat} (h : e.position a = some k)
    (files : ∀ r ∈ e.requests, r.file = a.file) : ∃ before r after,
      e.requests = before ++ r :: after ∧ before.length = k ∧ r.address = a ∧
      ∀ q ∈ before, q.address ≠ a := by
  obtain ⟨before, r, after, split, length, found, others⟩ := exists_first h
  rw [split] at files
  refine ⟨before, r, after, split, length,
    (Request.matchesRange_iff (files r (by simp))).mp found, ?_⟩
  intro q hq same
  have fails := others q hq
  rw [(Request.matchesRange_iff (files q (by simp [hq]))).mpr same] at fails
  cases fails

theorem position_isSome (h : r ∈ e.requests) (range : r.matchesRange a) :
    (e.position a).isSome := by
  rw [position, List.findIdx?_isSome]
  exact List.any_eq_true.mpr ⟨r, h, range⟩

theorem extract_append (split : e.requests = before ++ r :: after) :
    e.extract before.length = some ({ r with factor := max r.factor e.factor },
      regroup e.factor (before ++ after)) := by
  rw [extract, split, getElem?_length_append, eraseIdx_length_append]
  rfl

end Entry

def Request.leaving (r : Request) (e : Entry) : Request :=
  { r with factor := max r.factor e.factor }

def holds (line : List Entry) (a : Address) : Prop := ∃ e ∈ line, ∃ r ∈ e.requests, r.address = a

theorem FirstOf.holds (h : FirstOf a line front e back before r after) : holds line a :=
  ⟨e, by simp [h.line_eq], r, by simp [h.requests_eq], h.address_eq⟩

namespace OffsetQueue

theorem withdraw_cases (queue : List Entry) (a : Address)
    (files : ∀ e ∈ queue, ∀ r ∈ e.requests, r.file = a.file) :
    withdraw queue a = none ∧ ¬ holds queue a ∨
      ∃ front e back before r after, FirstOf a queue front e back before r after ∧
        withdraw queue a = some (r.leaving e,
          (regroup e.factor (before ++ after)).foldl reinsert (front ++ back)) := by
  cases found : queue.findIdx? fun e => (e.position a).isSome with
  | none =>
    refine .inl ⟨?_, ?_⟩
    · rw [withdraw, locate, found]
      rfl
    · rintro ⟨e, he, r, hr, same⟩
      have fails := List.findIdx?_eq_none_iff.mp found e he
      have range := (Request.matchesRange_iff (files e he r hr)).mpr same
      rw [Entry.position_isSome hr range] at fails
      cases fails
  | some i =>
    obtain ⟨front, e, back, rfl, rfl, here, others⟩ := exists_first found
    obtain ⟨k, position⟩ := Option.isSome_iff_exists.mp here
    obtain ⟨before, r, after, split, rfl, same, earlier⟩ :=
      Entry.position_some position (files e (by simp))
    have there := getElem?_length_append front back e
    have rest := eraseIdx_length_append front back e
    refine .inr ⟨front, e, back, before, r, after, ⟨rfl, split, same, ?_, earlier⟩, ?_⟩
    · intro o ho
      exact Entry.position_none
        (Option.not_isSome_iff_eq_none.mp (Bool.eq_false_iff.mp (others o ho)))
        (files o (by simp [ho]))
    · have located : locate (front ++ e :: back) a = some (front.length, before.length) := by
        rw [locate, found, Option.bind_some, there, Option.bind_some, position]
        rfl
      simp only [withdraw, located, there, Entry.extract_append split, rest, Option.bind_eq_bind,
        Option.bind_some, Option.pure_def, Request.leaving]

end OffsetQueue

namespace Timeline

theorem withdraw_cases (t : Timeline) (a : Address)
    (files : ∀ e ∈ t.entries, ∀ r ∈ e.requests, r.file = e.file) :
    t.withdraw a = none ∧ ¬ holds t.entries a ∨
      ∃ front e back before r after t', FirstOf a t.entries front e back before r after ∧
        t.withdraw a = some (r.leaving e, t') ∧
        t'.entries = front ++ regroup e.factor (before ++ after) ++ back := by
  cases found : t.locate a with
  | none =>
    refine .inl ⟨?_, ?_⟩
    · rw [withdraw, found]
      rfl
    · rintro ⟨e, he, r, hr, same⟩
      obtain ⟨i, hi⟩ := List.mem_iff_getElem?.mp he
      have fails := List.findSome?_eq_none_iff.mp found (e, i) (List.mem_zipIdx_iff_getElem?.mpr hi)
      have file : r.file = a.file := congrArg Address.file same
      have range := (Request.matchesRange_iff file).mpr same
      dsimp only at fails
      rw [if_pos ((files e he r hr).symm.trans file), Option.map_eq_none_iff] at fails
      have some := Entry.position_isSome hr range
      rw [fails] at some
      cases some
  | some place =>
    obtain ⟨i, k⟩ := place
    obtain ⟨lfront, ⟨e, j⟩, lback, zipped, here, others⟩ := List.findSome?_eq_some_iff.mp found
    obtain ⟨front, rest, split, rfl, tail⟩ := List.zipIdx_eq_append_iff.mp zipped
    obtain ⟨e', back, rfl, pair, -⟩ := List.zipIdx_eq_cons_iff.mp tail.symm
    obtain ⟨rfl, rfl⟩ := Prod.mk.inj pair
    rw [split] at files
    dsimp only at here
    split at here
    case isFalse => cases here
    rename_i file
    obtain ⟨k', position, place⟩ := Option.map_eq_some_iff.mp here
    obtain ⟨index, rfl⟩ := Prod.mk.inj place
    rw [Nat.zero_add] at index
    subst index
    obtain ⟨before, r, after, requests, rfl, same, earlier⟩ :=
      Entry.position_some position fun r hr => (files e (by simp) r hr).trans file
    obtain ⟨low, high, slots, rfl, upper⟩ := List.map_eq_append_iff.mp split
    obtain ⟨s, high, rfl, rfl, rfl⟩ := List.map_eq_cons_iff.mp upper
    rw [List.length_map] at found
    have stored : t.slots[low.length]? = some s := by
      rw [slots]
      exact getElem?_length_append low high s
    have erased : (t.store.eraseIdx low.length).items = low ++ high := by
      rw [Ring.items_eraseIdx, show t.store.items = low ++ s :: high from slots]
      exact eraseIdx_length_append low high s
    refine .inr ⟨low.map Slot.entry, s.entry, high.map Slot.entry, before, r, after, { t with
      store := (t.store.eraseIdx low.length).insertAll low.length
        ((regroup s.entry.factor (before ++ after)).map t.slotOf)
      requests := t.requests - 1 }, ⟨split, requests, same, ?_, earlier⟩, ?_, ?_⟩
    · intro o ho q hq address
      obtain ⟨j, hj⟩ := List.mem_iff_getElem?.mp ho
      have fails := others (o, j) (List.mem_zipIdx_iff_getElem?.mpr hj)
      have own := files o (List.mem_append_left _ ho)
      have file : o.file = a.file := (own q hq).symm.trans (congrArg Address.file address)
      dsimp only at fails
      rw [if_pos file, Option.map_eq_none_iff] at fails
      exact Entry.position_none fails (fun p hp => (own p hp).trans file) q hq address
    · simp only [withdraw, found, stored, Entry.extract_append requests, Option.bind_eq_bind,
        Option.bind_some, Option.pure_def, Request.leaving]
    · have placed : ∀ es : List Entry, es.map (Slot.entry ∘ t.slotOf) = es :=
        fun es => List.map_id'' (fun _ => rfl) es
      change List.map Slot.entry (Ring.insertAll _ _ _).items = _
      rw [Ring.items_insertAll _ erased, List.map_append, List.map_append, List.map_map, placed]

end Timeline

end

/-- The entry stands behind those that start no later than it does. -/
def Entry.StandsIn (e : Entry) (line : List Entry) : Prop :=
  ∃ front back, line = front ++ e :: back ∧ (∀ o ∈ front, o.offset ≤ e.offset) ∧
    ∀ o ∈ back, e.offset < o.offset

/-- Runs have come to the others, each one at its own offset. -/
structure Reinserted (runs others line : List Entry) : Prop where
  perm : line.Perm (runs ++ others)
  others_stay : others.Sublist line
  places : ∀ run ∈ runs, run.StandsIn line

namespace OffsetQueue

variable {queue runs : List Entry} {run o : Entry}

theorem reinsert_split (h : InOrder queue) (run : Entry) :
    ∃ front back, queue = front ++ back ∧ reinsert queue run = front ++ run :: back ∧
      (∀ o ∈ front, o.offset ≤ run.offset) ∧ ∀ o ∈ back, run.offset < o.offset := by
  obtain ⟨front, back, rfl, low, high, place⟩ := exists_slot Entry.offset run.offset h
  refine ⟨front, back, rfl, ?_, low, high⟩
  rw [reinsert, slot, place, Ring.insertIdx_length_append]

theorem inOrder_reinsert (h : InOrder queue) (run : Entry) : InOrder (reinsert queue run) :=
  pairwise_insert_slot Entry.offset run h

theorem standsIn_reinsert (h : InOrder queue) (stands : o.StandsIn queue)
    (later : o.offset < run.offset) : o.StandsIn (reinsert queue run) := by
  obtain ⟨front, back, split, low, high⟩ := stands
  obtain ⟨front', back', split', placed, low', high'⟩ := reinsert_split h run
  rw [split] at split'
  obtain ⟨c, rfl, rest⟩ | ⟨c, rfl, rest⟩ := List.append_eq_append_iff.mp split'
  · cases c with
    | nil =>
      have behind := high' o (List.nil_append back' ▸ rest ▸ List.mem_cons_self)
      omega
    | cons x c =>
      obtain ⟨rfl, rfl⟩ := List.cons.inj rest
      refine ⟨front, c ++ run :: back', ?_, low, ?_⟩
      · rw [placed, List.append_assoc, List.cons_append]
      intro p hp
      rcases List.mem_append.mp hp with hp | hp
      · exact high p (List.mem_append_left _ hp)
      · rcases List.mem_cons.mp hp with rfl | hp
        · exact later
        · exact high p (List.mem_append_right _ hp)
  · have behind := high' o (by simp [rest])
    omega

theorem standsIn_foldl_reinsert (h : InOrder queue) (stands : o.StandsIn queue)
    (later : ∀ run ∈ runs, o.offset < run.offset) : o.StandsIn (runs.foldl reinsert queue) := by
  induction runs generalizing queue with
  | nil => exact stands
  | cons run runs ih =>
    obtain ⟨first, rest⟩ := List.forall_mem_cons.mp later
    exact ih (inOrder_reinsert h run) (standsIn_reinsert h stands first) rest

theorem reinserted_foldl (h : InOrder queue)
    (apart : runs.Pairwise fun a b => a.offset < b.offset) :
    Reinserted runs queue (runs.foldl reinsert queue) := by
  induction runs generalizing queue with
  | nil => exact ⟨.refl _, .refl _, fun _ hr => absurd hr List.not_mem_nil⟩
  | cons run runs ih =>
    obtain ⟨first, rest⟩ := List.pairwise_cons.mp apart
    obtain ⟨front, back, split, placed, low, high⟩ := reinsert_split h run
    have later := ih (inOrder_reinsert h run) rest
    constructor
    case perm => exact foldl_reinsert_perm queue (run :: runs)
    case others_stay =>
      refine List.Sublist.trans ?_ later.others_stay
      rw [placed, split]
      exact (List.sublist_cons_self run back).append_left front
    case places =>
      refine List.forall_mem_cons.mpr ⟨?_, later.places⟩
      have stands : run.StandsIn (reinsert queue run) := ⟨front, back, placed, low, high⟩
      change run.StandsIn (runs.foldl reinsert (reinsert queue run))
      exact standsIn_foldl_reinsert (inOrder_reinsert h run) stands first

end OffsetQueue

theorem Index.withdraw_cases (x : Index) (a : Address) :
    ((x.fileOf a.file).lane a.direction).withdraw? a = none ∧ x.withdraw a = .error (.notFound a) ∨
      ∃ r l, ((x.fileOf a.file).lane a.direction).withdraw? a = some (r, l) ∧
        x.withdraw a = .ok (r,
          (x.update a.file ((x.fileOf a.file).setLane a.direction l)
            ((x.bucketOf a.file).pending - 1)).setCounts
            (((x.fileOf a.file).setLane a.direction l).deactivate 1 x.counts)) := by
  cases known : x.file? a.file with
  | none =>
    refine .inl ⟨?_, ?_⟩
    · rw [Index.fileOf_eq_fresh known]
      cases a.direction <;> rfl
    · rw [withdraw, Bucket.withdraw?, show (x.bucketOf a.file).file? a.file = none from known]
      rfl
  | some f =>
    rw [Index.fileOf_eq known]
    have stored : (x.bucketOf a.file).file? a.file = some f := known
    cases found : (f.lane a.direction).withdraw? a with
    | none =>
      refine .inl ⟨rfl, ?_⟩
      simp only [withdraw, Bucket.withdraw?, stored, FileState.withdraw?, found,
        Option.bind_eq_bind, Option.bind_some, Option.map_none, Option.bind_none]
    | some result =>
      obtain ⟨r, l⟩ := result
      refine .inr ⟨r, l, rfl, ?_⟩
      simp only [withdraw, Bucket.withdraw?, stored, FileState.withdraw?, found,
        Option.bind_eq_bind, Option.bind_some, Option.map_some, Option.pure_def, update]

namespace Core

/-- The line of entries in which a request of the address is looked for. -/
def line (c : Core) (a : Address) : List Entry :=
  if c.active.profile.bucketed then ((c.index.fileOf a.file).lane a.direction).entries
  else c.timeline.entries

/-- The entry `e` gives up its first request of the address, `r`. The runs of what is left come in
its place, and no other entry is touched. -/
structure Regroups (c : Core) (a : Address) (c' : Core) (front : List Entry) (e : Entry)
    (back : List Entry) (before : List Request) (r : Request) (after : List Request)
    (runs : List Entry) : Prop where
  found : FirstOf a (c.line a) front e back before r after
  maximal : MaximalRuns c.setup.entryBound e.file e.direction e.factor (before ++ after) runs
  in_lane : c.active.profile.bucketed → Reinserted runs (front ++ back) (c'.line a)
  on_timeline : ¬ c.active.profile.bucketed → c'.line a = front ++ runs ++ back
  other_lanes : ∀ name d, ¬ (c.active.profile.bucketed ∧ name = a.file ∧ d = a.direction) →
    ((c'.index.fileOf name).lane d).entries = ((c.index.fileOf name).lane d).entries
  other_line : c.active.profile.bucketed → c'.timeline = c.timeline

/-- One pending request, `r`, has left and is counted as cancelled; nothing else has changed. -/
structure Accounts (c : Core) (a : Address) (c' : Core) (r : Request) : Prop where
  pending : c.pending = r.bare ::ₘ c'.pending
  requests : c.counts.requests = c'.counts.requests + 1
  files : c.counts.files = c'.counts.files +
    if ∃ q ∈ c'.inLanes ++ c'.onTimeline, q.file = a.file then 0 else 1
  held : c'.held = c.held
  frame : c' = { c with
    index := c'.index, timeline := c'.timeline, ledger := c.ledger.recordCancelled }

variable {c c' : Core} {a : Address}

theorem InStep.lane_files (h : c.InStep) (name : String) (d : Direction) :
    ∀ e ∈ ((c.index.fileOf name).lane d).entries, ∀ r ∈ e.requests,
      r.file = name ∧ r.direction = d := by
  intro e he r hr
  have sound := ((h.index.file name).lane d).queue.entries e he
  rw [Index.file_fileOf] at sound
  exact sound.belongs r hr

theorem InStep.holds_line (h : c.InStep) (a : Address) :
    holds (c.line a) a ↔ ∃ r ∈ c.inLanes ++ c.onTimeline, r.address = a := by
  have unused := h.unused
  unfold line
  by_cases bucketed : c.active.profile.bucketed
  · rw [if_pos bucketed] at unused ⊢
    have empty : c.onTimeline = [] := by rw [onTimeline, entries_eq_nil unused, List.flatMap_nil]
    rw [empty, List.append_nil]
    constructor
    · rintro ⟨e, he, r, hr, same⟩
      exact ⟨r, List.mem_flatMap.mpr ⟨e, (h.lane_mem he).1, hr⟩, same⟩
    · rintro ⟨r, hr, same⟩
      obtain ⟨e, he, hr⟩ := List.mem_flatMap.mp hr
      have there := h.mem_lane he
      have own := h.lane_files e.file e.direction e there r hr
      have file : e.file = a.file := own.1.symm.trans (congrArg Address.file same)
      have direction : e.direction = a.direction :=
        own.2.symm.trans (congrArg Address.direction same)
      rw [file, direction] at there
      exact ⟨e, there, r, hr, same⟩
  · rw [if_neg bucketed] at unused ⊢
    have empty : c.inLanes = [] := by
      rw [inLanes, entries_eq_nil (c.index.contents_entries.trans unused), List.flatMap_nil]
    rw [empty, List.nil_append]
    constructor
    · rintro ⟨e, he, r, hr, same⟩
      exact ⟨r, List.mem_flatMap.mpr ⟨e, he, hr⟩, same⟩
    · rintro ⟨r, hr, same⟩
      obtain ⟨e, he, hr⟩ := List.mem_flatMap.mp hr
      exact ⟨e, he, r, hr, same⟩

theorem countOf_pending (c : Core) (name : String) :
    countOf name c.pending = (c.inLanes ++ c.onTimeline).countP fun r => r.file = name := by
  have bag : c.pending = bareBag (c.inLanes ++ c.onTimeline) := by
    rw [bareBag_append, bareBag_inLanes, bareBag_onTimeline]
    rfl
  rw [bag, countOf]
  exact countP_bareBag (fun _ => Iff.rfl) _

theorem InStep.counts_withdrawn {r : Request} (h : c.InStep) (h' : c'.InStep)
    (file : r.file = a.file)
    (left : c.pending = r.bare ::ₘ c'.pending)
    (counts : c'.counts = (c'.index.fileOf a.file).deactivate 1 c.counts) :
    c.counts.requests = c'.counts.requests + 1 ∧ c.counts.files = c'.counts.files +
      if ∃ q ∈ c'.inLanes ++ c'.onTimeline, q.file = a.file then 0 else 1 := by
  have before := h.requests_eq
  have after := h'.requests_eq
  change c.counts.requests = c.pending.card at before
  change c'.counts.requests = c'.pending.card at after
  rw [left, Multiset.card_cons] at before
  refine ⟨by omega, ?_⟩
  have some_pending : 0 < (c.index.fileOf a.file).pending := by
    rw [h.pending_eq]
    change 0 < countOf a.file c.pending
    exact Multiset.countP_pos.mpr ⟨r.bare, by rw [left]; exact Multiset.mem_cons_self _ _, file⟩
  have live := h.counted.live_le h.index.placed a.file
  rw [FileState.live_eq_one some_pending.ne'] at live
  have rest : (c'.index.fileOf a.file).pending =
      (c'.inLanes ++ c'.onTimeline).countP fun q => q.file = a.file :=
    (h'.pending_eq a.file).trans (c'.countOf_pending a.file)
  have files := congrArg PendingCounts.files counts
  unfold FileState.deactivate at files
  rw [rest] at files
  change 1 ≤ c.counts.files at live
  by_cases more : ∃ q ∈ c'.inLanes ++ c'.onTimeline, q.file = a.file
  · rw [if_pos more]
    obtain ⟨q, hq, same⟩ := more
    have pos : 0 < (c'.inLanes ++ c'.onTimeline).countP fun q => q.file = a.file :=
      List.countP_pos_iff.mpr ⟨q, hq, decide_eq_true same⟩
    rw [if_neg pos.ne'] at files
    exact files.symm
  · rw [if_neg more]
    have none : ((c'.inLanes ++ c'.onTimeline).countP fun q => q.file = a.file) = 0 :=
      List.countP_eq_zero.mpr fun q hq same => more ⟨q, hq, of_decide_eq_true same⟩
    rw [if_pos none] at files
    change c'.counts.files = c.counts.files - 1 at files
    omega

theorem cancel_absent (h : c.InStep) (absent : ¬ holds (c.line a) a) :
    c.cancel a = ({ c with ledger := c.ledger.recordNotFound }, .error (.notFound a)) := by
  have refused : c.dequeue a = .error (.notFound a) := by
    unfold line at absent
    by_cases bucketed : c.active.profile.bucketed
    · rw [if_pos bucketed] at absent
      have files := h.lane_files a.file a.direction
      obtain ⟨none, -⟩ | ⟨_, _, _, _, _, _, first, -⟩ := OffsetQueue.withdraw_cases
        ((c.index.fileOf a.file).lane a.direction).entries a fun e he r hr => (files e he r hr).1
      · obtain ⟨-, error⟩ | ⟨r, l, some, -⟩ := c.index.withdraw_cases a
        · rw [dequeue, if_pos bucketed, error]
          rfl
        · rw [Lane.withdraw?, none] at some
          cases some
      · exact absurd first.holds absent
    · rw [if_neg bucketed] at absent
      obtain ⟨none, -⟩ | ⟨_, _, _, _, _, _, _, first, -⟩ := c.timeline.withdraw_cases a
        fun e he r hr => ((h.timeline.entries e he).belongs r hr).1
      · rw [dequeue, if_neg bucketed, none]
      · exact absurd first.holds absent
  rw [cancel, refused]

theorem cancel_of_dequeue {r : Request} (hd : c.dequeue a = .ok (r, c')) :
    c.cancel a = ({ c' with ledger := c'.ledger.recordCancelled }, .ok ()) := by
  rw [cancel, hd]

theorem InStep.known (h : c.InStep) (unbucketed : ¬ c.active.profile.bucketed)
    (found : holds (c.line a) a) : (c.index.file? a.file).isSome := by
  obtain ⟨e, he, r, hr, same⟩ := found
  rw [line, if_neg unbucketed] at he
  apply Index.known_of_onTimeline
  rw [h.onTimeline]
  refine Multiset.countP_pos.mpr ⟨r.bare, mem_contents.mpr ⟨e, he, r, hr, rfl⟩, ?_⟩
  exact congrArg Address.file same

theorem accounts_of_dequeue (h : c.InStep) {r : Request} {e : Entry} (file : r.file = a.file)
    (hd : c.dequeue a = .ok (r.leaving e, c'))
    (counts : c'.counts = (c'.index.fileOf a.file).deactivate 1 c.counts) :
    c.Accounts a (c.cancel a).1 r := by
  obtain ⟨x, t, form, step, pending, held⟩ := dequeue_effect h hd
  have inStep : c'.InStep := by
    rw [form]
    exact step
  have left : c.pending = r.bare ::ₘ c'.pending := by
    rw [form]
    exact pending
  obtain ⟨requests, files⟩ := h.counts_withdrawn inStep file left counts
  rw [cancel_of_dequeue hd]
  subst form
  exact ⟨pending, requests, files, held, rfl⟩

theorem maximalRuns_of_first {line front back : List Entry} {e : Entry}
    {before after : List Request} {r : Request} {bound : Nat} (first : FirstOf a line front e back before r after)
    (sound : e.Sound bound e.file e.direction) :
    MaximalRuns bound e.file e.direction e.factor (before ++ after)
      (regroup e.factor (before ++ after)) := by
  have maximal := sound.maximalRuns (Entry.extract_append first.requests_eq)
  rwa [first.requests_eq, eraseIdx_length_append] at maximal

theorem cancel_in_lane (h : c.InStep) (bucketed : c.active.profile.bucketed)
    (found : holds (c.line a) a) : (c.cancel a).2 = .ok () ∧
      ∃ front e back before r after runs,
        c.Regroups a (c.cancel a).1 front e back before r after runs ∧
        c.Accounts a (c.cancel a).1 r := by
  let f := c.index.fileOf a.file
  have line_eq : c.line a = (f.lane a.direction).entries := if_pos bucketed
  have files := h.lane_files a.file a.direction
  obtain ⟨-, absent⟩ | ⟨front, e, back, before, r, after, first, taken⟩ :=
    OffsetQueue.withdraw_cases (f.lane a.direction).entries a fun e he r hr => (files e he r hr).1
  · exact absurd (line_eq ▸ found) absent
  obtain ⟨none, -⟩ | ⟨r', l, some, ok⟩ := c.index.withdraw_cases a
  · rw [Lane.withdraw?, taken] at none
    cases none
  obtain ⟨entries, taken', form⟩ := Lane.withdraw?_some some
  obtain ⟨rfl, rfl⟩ := Prod.mk.inj (Option.some.inj (taken'.symm.trans taken))
  have queue := ((h.index.file a.file).lane a.direction).queue
  have sound := (queue.entries e (first.line_eq ▸ by simp)).alone
  have maximal := maximalRuns_of_first first sound
  have removed : (front ++ back).Sublist (f.lane a.direction).entries := by
    rw [first.line_eq]
    exact (List.sublist_cons_self e back).append_left front
  have reinserted := OffsetQueue.reinserted_foldl (queue.inOrder.sublist removed) maximal.ascending
  let y := (c.index.update a.file (f.setLane a.direction l)
    ((c.index.bucketOf a.file).pending - 1)).setCounts
      ((f.setLane a.direction l).deactivate 1 c.counts)
  have dequeued : c.dequeue a = .ok (r.leaving e, { c with index := y }) := by
    rw [dequeue, if_pos bucketed, ok]
    rfl
  have updated (n : String) : y.fileOf n = if n = a.file then f.setLane a.direction l else
      c.index.fileOf n := Index.fileOf_update c.index _
    ((FileState.file_setLane f a.direction l).trans (Index.file_fileOf c.index a.file)) n
  have file : r.file = a.file := congrArg Address.file first.address_eq
  have accounts := accounts_of_dequeue h file dequeued
    (congrArg (FileState.deactivate · 1 c.counts) ((updated a.file).trans (if_pos rfl)).symm)
  rw [cancel_of_dequeue dequeued] at accounts ⊢
  refine ⟨rfl, front, e, back, before, r, after, regroup e.factor (before ++ after), ?_, accounts⟩
  constructor
  case found => exact line_eq ▸ first
  case maximal => exact maximal
  case in_lane =>
    intro _
    have after_line : ((y.fileOf a.file).lane a.direction).entries = l.entries := by
      rw [updated, if_pos rfl, FileState.lane_setLane]
    rw [line, if_pos bucketed, after_line, form]
    exact reinserted
  case on_timeline => exact absurd bucketed
  case other_lanes =>
    intro name d other
    change ((y.fileOf name).lane d).entries = _
    rw [updated]
    split
    · rename_i here
      have away : d ≠ a.direction := fun same => other ⟨bucketed, here, same⟩
      rw [FileState.lane_setLane_of_ne _ _ away, here]
    · rfl
  case other_line => exact fun _ => rfl

theorem cancel_on_timeline (h : c.InStep) (unbucketed : ¬ c.active.profile.bucketed)
    (found : holds (c.line a) a) : (c.cancel a).2 = .ok () ∧
      ∃ front e back before r after runs,
        c.Regroups a (c.cancel a).1 front e back before r after runs ∧
        c.Accounts a (c.cancel a).1 r := by
  have line_eq : c.line a = c.timeline.entries := if_neg unbucketed
  obtain ⟨-, absent⟩ | ⟨front, e, back, before, r, after, t, first, taken, entries⟩ :=
    c.timeline.withdraw_cases a fun e he r hr => ((h.timeline.entries e he).belongs r hr).1
  · exact absurd (line_eq ▸ found) absent
  have sound := h.timeline.entries e (first.line_eq ▸ by simp)
  have maximal := maximalRuns_of_first first sound
  let y := c.index.noteTimelineRemove a.file 1
  have dequeued : c.dequeue a = .ok (r.leaving e, { c with index := y, timeline := t }) := by
    rw [dequeue, if_neg unbucketed, taken]
    dsimp only
    rw [if_pos (h.known unbucketed found)]
  have step := Index.noteTimelineRemove_rewrites c.index a.file 1
  have file : r.file = a.file := congrArg Address.file first.address_eq
  have accounts := accounts_of_dequeue h file dequeued
    (congrArg (FileState.deactivate · 1 c.counts) ((step.fileOf a.file).trans (if_pos rfl)).symm)
  rw [cancel_of_dequeue dequeued] at accounts ⊢
  refine ⟨rfl, front, e, back, before, r, after, regroup e.factor (before ++ after), ?_, accounts⟩
  constructor
  case found => exact line_eq ▸ first
  case maximal => exact maximal
  case in_lane => exact fun bucketed => absurd bucketed unbucketed
  case on_timeline =>
    intro _
    rw [line, if_neg unbucketed]
    exact entries
  case other_lanes =>
    intro name d _
    change ((y.fileOf name).lane d).entries = _
    rw [step.fileOf]
    split
    · rename_i here
      rw [here]
      cases d <;> rfl
    · rfl
  case other_line => exact fun bucketed => absurd bucketed unbucketed

end Core

namespace System

/-- A withdrawal takes exactly one request of the address, if one is pending, and otherwise does
nothing but count the failure. -/
structure CancelsExactly (s : System) (a : Address) : Prop where
  succeeds : (s.core.cancel a).2 = .ok () ↔ ∃ r ∈ s.core.inLanes ++ s.core.onTimeline, r.address = a
  /-- What can be withdrawn has not been handed out. -/
  undispatched : ∀ r ∈ s.core.inLanes ++ s.core.onTimeline, ∀ q ∈ s.out, q.seq ≠ r.seq
  withdraws : (s.core.cancel a).2 = .ok () → ∃ front e back before r after runs,
    s.core.Regroups a (s.core.cancel a).1 front e back before r after runs ∧
      s.core.Accounts a (s.core.cancel a).1 r
  fails : (s.core.cancel a).2 ≠ .ok () → s.core.cancel a = ({ s.core with
    ledger := { s.core.ledger with notFound := s.core.ledger.notFound + 1 } }, .error (.notFound a))

theorem Kept.undispatched {s : System} {setup : Setup} (h : s.Kept setup) :
    ∀ r ∈ s.core.inLanes ++ s.core.onTimeline, ∀ q ∈ s.out, q.seq ≠ r.seq := by
  intro r hr q hq same
  obtain ⟨accepted, found, -⟩ := h.conserved.genuine q (.inr (.inr (.inl hq)))
  have once := h.conserved.once q.seq (List.getElem?_eq_some_iff.mp found).1
  have out : 0 < times q.seq s.out := List.countP_pos_iff.mpr ⟨q, hq, decide_eq_true rfl⟩
  have pending : 0 < times q.seq (s.core.inLanes ++ s.core.onTimeline) :=
    List.countP_pos_iff.mpr ⟨r, hr, decide_eq_true same.symm⟩
  rw [times, List.countP_append] at pending
  change 0 < times q.seq _ + times q.seq _ at pending
  omega

/-- After every run a withdrawal is exact, on either index. -/
theorem run_cancels_exactly (setup : Setup) (actions : List Action) (a : Address) :
    (run setup actions).CancelsExactly a := by
  have kept := run_kept setup actions
  have inStep := kept.inStep
  generalize run setup actions = s at kept inStep
  have cases_on : ¬ holds (s.core.line a) a ∨ (s.core.cancel a).2 = .ok () ∧
      ∃ front e back before r after runs,
        s.core.Regroups a (s.core.cancel a).1 front e back before r after runs ∧
          s.core.Accounts a (s.core.cancel a).1 r := by
    by_cases found : holds (s.core.line a) a
    · by_cases bucketed : s.core.active.profile.bucketed
      · exact .inr (Core.cancel_in_lane inStep bucketed found)
      · exact .inr (Core.cancel_on_timeline inStep bucketed found)
    · exact .inl found
  have refused (absent : ¬ holds (s.core.line a) a) := Core.cancel_absent inStep absent
  constructor
  case undispatched => exact kept.undispatched
  case succeeds =>
    rw [← inStep.holds_line a]
    constructor
    · intro ok
      by_contra absent
      rw [refused absent] at ok
      cases ok
    · intro found
      exact (cases_on.resolve_left (not_not.mpr found)).1
  case withdraws =>
    intro ok
    refine (cases_on.resolve_left fun absent => ?_).2
    rw [refused absent] at ok
    cases ok
  case fails =>
    intro failed
    exact refused (cases_on.resolve_right fun withdrawn => failed withdrawn.1)

end System

end IoScheduling
