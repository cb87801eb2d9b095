import IoScheduling.Proofs.Runs

/-! # The structure of the indexes

What every run keeps: queues in order, entries of one file and direction whose requests leave no
gap, heads that tell the truth about their requests, and files in their buckets. The binary searches
and the splitting of entries rest on it. -/
namespace IoScheduling

/-- What an entry of one file and direction has to look like. -/
structure Entry.WellFormed (bound : Nat) (file : String) (d : Direction) (e : Entry) : Prop where
  belongs : ∀ r ∈ e.requests, r.file = file ∧ r.direction = d
  size : e.isAggregate → 2 ≤ e.count ∧ e.count ≤ bound
  sorted : e.requests.Pairwise fun r s => r.offset ≤ s.offset
  gapless : ∀ front r back, e.requests = front ++ r :: back → front ≠ [] →
    ∃ s ∈ front, r.offset ≤ s.stop
  offset_eq : (e.requests.map Request.offset).min? = some e.offset
  stop_eq : (e.requests.map Request.stop).max? = some e.stop
  arrival_eq : (e.requests.map Request.arrival).min? = some e.earliestArrival
  seq_eq : (e.requests.map Request.seq).min? = some e.firstSeq

/-- What the two indexes of a core have to look like. -/
structure Core.WellFormed (c : Core) : Prop where
  inOrder : ∀ f ∈ c.index.files, ∀ d,
    (f.lane d).entries.Pairwise fun a b => a.offset ≤ b.offset
  inLanes : ∀ f ∈ c.index.files, ∀ d, ∀ e ∈ (f.lane d).entries,
    e.WellFormed c.setup.entryBound f.file d
  onTimeline : ∀ e ∈ c.timeline.entries, e.WellFormed c.setup.entryBound e.file e.direction
  buckets : c.index.buckets.Pairwise fun a b => a.1 < b.1
  names : ∀ a ∈ c.index.buckets, a.2.files.Pairwise fun f g => f.file < g.file
  slots : ∀ a ∈ c.index.buckets, ∀ f ∈ a.2.files, c.index.slotOf f.file = a.1

namespace Entry

variable {bound : Nat} {file : String} {d : Direction} {e : Entry}

theorem Sound.reached (h : e.Sound bound file d) {front back : List Request} {r : Request}
    (split : e.requests = front ++ r :: back) (hne : front ≠ []) :
    ∃ s ∈ front, r.offset ≤ s.stop := by
  cases e with
  | single q =>
    have size := congrArg List.length split
    have pos := List.length_pos_of_ne_nil hne
    simp [requests] at size
    omega
  | aggregate head m =>
    obtain ⟨-, -, -, word⟩ := h.headed
    have bounds : ∀ s ∈ m.toList, (aggregate head m).offset ≤ s.offset ∧ s.offset ≤ s.stop ∧
        s.stop ≤ (aggregate head m).stop := by
      intro s hs
      rw [h.headed.offset_eq, h.headed.stop_eq]
      exact ⟨Members.least_le _ hs, offset_le_stop (word s hs), Members.le_greatest _ hs⟩
    have covered := h.covered
    have sorted := h.sorted
    change m.toList = front ++ r :: back at split
    change Covers m.toList _ _ at covered
    change m.toList.Pairwise _ at sorted
    rw [split] at covered sorted bounds
    exact reached_of_covers covered sorted bounds hne

theorem Sound.wellFormed (h : e.Sound bound file d) : e.WellFormed bound file d := by
  have requests : e.requests = e.members.toList := (toList_members e).symm
  constructor
  case belongs => exact h.belongs
  case sorted => exact h.sorted
  case gapless => exact fun _ _ _ => h.reached
  case size =>
    intro ha
    cases e with
    | single => cases ha
    | aggregate => exact ⟨h.headed.2.1, h.headed.2.2.1⟩
  case offset_eq =>
    rw [requests, h.headed.offset_eq]
    exact Members.min?_map_toList _ _
  case stop_eq =>
    rw [requests, h.headed.stop_eq]
    exact Members.max?_map_toList _ _
  case arrival_eq =>
    rw [requests, Members.min?_map_toList]
    cases e with
    | single => rfl
    | aggregate head m => exact congrArg some (congrArg Head.earliestArrival h.headed.1).symm
  case seq_eq =>
    rw [requests, Members.min?_map_toList]
    cases e with
    | single => rfl
    | aggregate head m => exact congrArg some (congrArg Head.firstSeq h.headed.1).symm

end Entry

theorem Core.InStep.wellFormed {c : Core} (h : c.InStep) : c.WellFormed where
  inOrder := by
    intro f hf d
    exact ((h.index.stored hf).lane d).queue.inOrder
  inLanes := by
    intro f hf d e he
    exact (((h.index.stored hf).lane d).queue.entries e he).wellFormed
  onTimeline := by
    intro e he
    exact (h.timeline.entries e he).wellFormed
  buckets := h.index.placed.numbers
  names := h.index.placed.names
  slots := h.index.placed.slot

namespace System

/-- Every run keeps the structure of both indexes, whatever the offsets and lengths. -/
theorem run_well_formed (setup : Setup) (actions : List Action) :
    (run setup actions).core.WellFormed :=
  (run_inStep setup actions).wellFormed

end System

end IoScheduling
