import IoScheduling.Proofs.BurstProgress
import IoScheduling.Proofs.Starvation
import Mathlib.Order.Bounds.Defs

/-! # What a selection finds

A selection passes the heads of all files that are not cooling down and returns the oldest that is
then eligible. Buckets and files in which nothing waits are passed over, by the counts that the
index keeps; since these are exact, no head is missed. -/
namespace IoScheduling

namespace Index

def Before (x : Index) (name name' : String) : Prop :=
  x.slotOf name < x.slotOf name' ∨ x.slotOf name = x.slotOf name' ∧ name < name'

def LaneBefore (x : Index) (l l' : String × Direction) : Prop :=
  x.Before l.1 l'.1 ∨ l.1 = l'.1 ∧ l.2 = .read ∧ l'.2 = .write

variable {x : Index}

theorem Before.asymm {name name' : String} (h : x.Before name name') : ¬ x.Before name' name := by
  rintro (less' | ⟨slot', less'⟩)
  · rcases h with less | ⟨slot, -⟩
    · exact lt_asymm less less'
    · omega
  · rcases h with less | ⟨-, less⟩
    · omega
    · exact lt_asymm less less'

theorem LaneBefore.asymm {l l' : String × Direction} (h : x.LaneBefore l l') :
    ¬ x.LaneBefore l' l := by
  rcases h with before | ⟨name, read, -⟩
  · rintro (before' | ⟨name', -⟩)
    · exact before.asymm before'
    · rw [name'] at before
      exact before.asymm before
  · rintro (before' | ⟨-, -, write'⟩)
    · rw [name] at before'
      exact before'.asymm before'
    · rw [read] at write'
      cases write'

theorem Placed.active_before (h : x.Placed) :
    x.activeFiles.Pairwise fun f g => x.Before f.file g.file := by
  refine List.pairwise_flatMap.mpr ⟨?_, ?_⟩
  · intro a ha
    have stored := (List.mem_filter.mp ha).1
    refine (h.names a stored).imp_of_mem ?_
    intro f g hf hg before
    have slots : x.slotOf f.file = x.slotOf g.file :=
      (h.slot a stored f hf).trans (h.slot a stored g hg).symm
    exact .inr ⟨slots, before⟩
  · refine (h.numbers.filter _).imp_of_mem ?_
    intro a b ha hb before f hf g hg
    have first := h.slot a (List.mem_filter.mp ha).1 f hf
    have second := h.slot b (List.mem_filter.mp hb).1 g hg
    exact .inl (by rw [first, second]; exact before)

theorem lanesOf_before {files : List FileState}
    (h : files.Pairwise fun f g => x.Before f.file g.file) :
    (lanesOf files).Pairwise fun l l' => x.LaneBefore (l.1.file, l.2) (l'.1.file, l'.2) := by
  refine List.pairwise_flatMap.mpr ⟨fun f _ => ?_, h.imp fun before l hl l' hl' => ?_⟩
  · exact List.pairwise_pair.mpr (.inr ⟨rfl, rfl, rfl⟩)
  · obtain ⟨d, -, rfl⟩ := List.mem_map.mp hl
    obtain ⟨d', -, rfl⟩ := List.mem_map.mp hl'
    exact .inl before

end Index

theorem firstLeast_split {α : Type} {f : α → Nat} {xs : List α} {a : α}
    (h : firstLeast f xs = some a) :
    ∃ front back, xs = front ++ a :: back ∧ ∀ b ∈ front, f a < f b := by
  cases xs with
  | nil => cases h
  | cons x rest =>
    rw [← Option.some.inj h]
    clear h
    -- The induction is from the end: a later item comes in only if it is strictly less.
    induction rest using List.reverseRecOn with
    | nil => exact ⟨[], [], rfl, fun b hb => absurd hb List.not_mem_nil⟩
    | append_singleton rest y ih =>
      obtain ⟨front, back, split, least⟩ := ih
      have le : ∀ b ∈ x :: rest, f (rest.foldl (fun best b => if f b < f best then b else best) x) ≤
          f b := fun b hb => firstLeast_le rfl hb
      rw [List.foldl_concat, ← List.cons_append]
      split
      · rename_i smaller
        exact ⟨x :: rest, [], rfl, fun b hb => smaller.trans_le (le b hb)⟩
      · refine ⟨front, back ++ [y], ?_, least⟩
        rw [split, List.append_assoc, List.cons_append]

theorem firstLeast_before {α : Type} {f : α → Nat} {r : α → α → Prop} {xs : List α} {a b : α}
    (order : xs.Pairwise r) (h : firstLeast f xs = some a) (hb : b ∈ xs) :
    b = a ∨ f a < f b ∨ f a = f b ∧ r a b := by
  obtain ⟨front, back, rfl, least⟩ := firstLeast_split h
  have le := firstLeast_le h hb
  rcases List.mem_append.mp hb with hb | hb
  · exact .inr (.inl (least b hb))
  rcases List.mem_cons.mp hb with rfl | hb
  · exact .inl rfl
  · have behind : r a b := (List.pairwise_cons.mp (List.pairwise_append.mp order).2.1).1 b hb
    rcases le.lt_or_eq with less | same
    · exact .inr (.inl less)
    · exact .inr (.inr ⟨same, behind⟩)

theorem firstLeast_eq_none {α : Type} {f : α → Nat} {xs : List α} :
    firstLeast f xs = none ↔ xs = [] := by
  cases xs with
  | nil => exact ⟨fun _ => rfl, fun _ => rfl⟩
  | cons x rest => exact ⟨nofun, nofun⟩

/-- Which element comes first among the least does not depend on how they are found. -/
theorem firstLeast_eq_some_iff {α : Type} {f : α → Nat} {r : α → α → Prop} {xs : List α} {a : α}
    (order : xs.Pairwise r) (asymm : ∀ {a b}, r a b → ¬ r b a) :
    firstLeast f xs = some a ↔ a ∈ xs ∧ ∀ b ∈ xs, b = a ∨ f a < f b ∨ f a = f b ∧ r a b := by
  constructor
  · exact fun first => ⟨firstLeast_mem first, fun b hb => firstLeast_before order first hb⟩
  · rintro ⟨mem, least⟩
    obtain ⟨b, first, hb⟩ := exists_firstLeast (f := f) mem
    -- Whichever is found and `a` would each be preferred to the other.
    rcases least b hb with rfl | ahead
    · exact first
    rcases firstLeast_before order first mem with rfl | behind
    · exact first
    rcases ahead with less | ⟨same, before⟩
    · rcases behind with less' | ⟨same', -⟩ <;> omega
    · rcases behind with less' | ⟨-, before'⟩
      · omega
      · exact absurd before' (asymm before)

namespace Burst

variable {x : Index} {c : Core} {k k' : Candidate} {f : FileState} {quantumBytes now w : Nat}

/-- The lane of the candidate has a head that is eligible once it has been passed, and the file is
not cooling down. -/
structure Offered (quantumBytes now : Nat) (x : Index) (k : Candidate) : Prop where
  awake : (x.fileOf k.file).cooldown? now = none
  head : ∃ e, ((x.fileOf k.file).lane k.direction).entries.head? = some e ∧
    e.promote.eligible quantumBytes ∧ e.earliestArrival = k.arrival

def Cooling (now : Nat) (x : Index) (w : Nat) : Prop :=
  ∃ file d, ((x.fileOf file).lane d).entries ≠ [] ∧ (x.fileOf file).cooldown? now = some w

def Precedes (x : Index) (k k' : Candidate) : Prop :=
  x.Before k.file k'.file ∨ k.file = k'.file ∧ k.direction = .read ∧ k'.direction = .write

/-- One head is preferred to another: it is older, or as old and comes first. -/
def Preferred (x : Index) (k k' : Candidate) : Prop :=
  k.arrival < k'.arrival ∨ k.arrival = k'.arrival ∧ Precedes x k k'

theorem precedes_asymm (h : Precedes x k k') : ¬ Precedes x k' k :=
  have before : x.LaneBefore (k.file, k.direction) (k'.file, k'.direction) := h
  before.asymm

theorem isIdle_eq_false : f.isIdle = false ↔ ∃ d, (f.lane d).entries ≠ [] := by
  constructor
  · intro busy
    rcases Bool.and_eq_false_iff.mp busy with reads | writes
    · exact ⟨.read, List.isEmpty_eq_false_iff.mp reads⟩
    · exact ⟨.write, List.isEmpty_eq_false_iff.mp writes⟩
  · rintro ⟨d, used⟩
    cases d with
    | read => exact Bool.and_eq_false_iff.mpr (.inl (List.isEmpty_eq_false_iff.mpr used))
    | write => exact Bool.and_eq_false_iff.mpr (.inr (List.isEmpty_eq_false_iff.mpr used))

theorem active_of_lane (h : c.InStep) {file : String} {d : Direction}
    (used : ((c.index.fileOf file).lane d).entries ≠ []) :
    c.index.fileOf file ∈ c.index.activeFiles := by
  obtain ⟨b, hb, inside, active⟩ := h.bucket_of_lane used
  refine List.mem_flatMap.mpr ⟨_, List.mem_filter.mpr ⟨hb, ?_⟩, inside⟩
  simpa using active

def offers (quantumBytes now : Nat) (x : Index) : List Candidate :=
  (lanesOf ((x.activeFiles.filter (isScanned now)).map (scanFile now))).filterMap
    (offer? quantumBytes)

def waits (now : Nat) (x : Index) : List Nat :=
  (x.activeFiles.filter fun f => !f.isIdle).filterMap (·.cooldown? now)

theorem earliestArrival_promote (e : Entry) : e.promote.earliestArrival = e.earliestArrival := by
  cases e <;> rfl

theorem offer?_scanFile (scanned : isScanned now f) (d : Direction) :
    offer? quantumBytes (scanFile now f, d) = some k ↔
      k.file = f.file ∧ k.direction = d ∧ ∃ e, (f.lane d).entries.head? = some e ∧
        e.promote.eligible quantumBytes ∧ e.earliestArrival = k.arrival := by
  have head : ((scanFile now f).lane d).entries.head? =
      (f.lane d).entries.head?.map Entry.promote := by
    rw [lane_scanFile scanned]
    cases (f.lane d).entries <;> rfl
  have file : (scanFile now f).file = f.file := (alike_scanFile now f).file
  unfold offer?
  dsimp only
  rw [head, file]
  constructor
  · intro found
    obtain ⟨e', he', rfl⟩ := Option.map_eq_some_iff.mp found
    obtain ⟨promoted, eligible⟩ := Option.filter_eq_some_iff.mp he'
    obtain ⟨e, he, rfl⟩ := Option.map_eq_some_iff.mp promoted
    exact ⟨rfl, rfl, e, he, eligible, (earliestArrival_promote e).symm⟩
  · rintro ⟨name, direction, e, he, eligible, arrival⟩
    rw [he, Option.map_some, Option.filter_some, if_pos eligible, Option.map_some,
      earliestArrival_promote, arrival, ← name, ← direction]

theorem mem_offers (h : c.InStep) :
    k ∈ offers quantumBytes now c.index ↔ Offered quantumBytes now c.index k := by
  unfold offers
  rw [List.mem_filterMap]
  constructor
  · rintro ⟨⟨g, d⟩, hg, offer⟩
    obtain ⟨f, hf, rfl⟩ := List.mem_map.mp (mem_lanesOf.mp hg)
    obtain ⟨active, scanned⟩ := List.mem_filter.mp hf
    obtain ⟨name, rfl, e, head, eligible, arrival⟩ := (offer?_scanFile scanned d).mp offer
    have here : c.index.fileOf k.file = f := by
      rw [name, Index.fileOf_of_mem h.index.placed (Index.mem_files_of_active active)]
    have awake : f.cooldown? now = none := by simpa using (Bool.and_eq_true_iff.mp scanned).2
    exact ⟨by rw [here, awake], e, by rw [here, head], eligible, arrival⟩
  · rintro ⟨awake, e, head, eligible, arrival⟩
    have used : ((c.index.fileOf k.file).lane k.direction).entries ≠ [] := by
      intro none
      rw [none] at head
      cases head
    have scanned : isScanned now (c.index.fileOf k.file) := by
      rw [isScanned, isIdle_eq_false.mpr ⟨_, used⟩, awake]
      rfl
    refine ⟨(scanFile now (c.index.fileOf k.file), k.direction), ?_, ?_⟩
    · exact mem_lanesOf.mpr
        (List.mem_map_of_mem (List.mem_filter.mpr ⟨active_of_lane h used, scanned⟩))
    · exact (offer?_scanFile scanned _).mpr
        ⟨(Index.file_fileOf c.index k.file).symm, rfl, e, head, eligible, arrival⟩

theorem mem_waits (h : c.InStep) : w ∈ waits now c.index ↔ Cooling now c.index w := by
  unfold waits
  rw [List.mem_filterMap]
  constructor
  · rintro ⟨f, hf, cooling⟩
    obtain ⟨active, busy⟩ := List.mem_filter.mp hf
    obtain ⟨d, used⟩ := isIdle_eq_false.mp (Bool.not_eq_true' _ ▸ busy)
    have here := Index.fileOf_of_mem h.index.placed (Index.mem_files_of_active active)
    exact ⟨f.file, d, by rw [here]; exact used, by rw [here, cooling]⟩
  · rintro ⟨file, d, used, cooling⟩
    refine ⟨c.index.fileOf file, List.mem_filter.mpr ⟨active_of_lane h used, ?_⟩, cooling⟩
    rw [isIdle_eq_false.mpr ⟨d, used⟩]
    rfl

theorem offers_precede (h : x.Placed) :
    (offers quantumBytes now x).Pairwise (Precedes x) := by
  have files : ((x.activeFiles.filter (isScanned now)).map (scanFile now)).Pairwise
      fun f g => x.Before f.file g.file := by
    refine List.pairwise_map.mpr ((h.active_before.filter _).imp ?_)
    intro f g before
    rwa [(alike_scanFile now f).file, (alike_scanFile now g).file]
  have named {l : FileState × Direction} {k : Candidate} (hk : offer? quantumBytes l = some k) :
      k.file = l.1.file ∧ k.direction = l.2 := by
    obtain ⟨e, -, rfl⟩ := Option.map_eq_some_iff.mp hk
    exact ⟨rfl, rfl⟩
  refine List.pairwise_filterMap.mpr ((Index.lanesOf_before files).imp ?_)
  intro l l' before k hk k' hk'
  obtain ⟨file, direction⟩ := named hk
  obtain ⟨file', direction'⟩ := named hk'
  rw [Precedes, file, file', direction, direction']
  exact before

/-- What a selection among the lanes of `x` returns. -/
structure Selection (quantumBytes now : Nat) (x : Index)
    (r : Option Candidate × Option Nat × Index) : Prop where
  /-- Of a file that is not cooling down, the head of each lane is promoted, and nothing else. -/
  passed : ∀ file d, (x.fileOf file).cooldown? now = none → (r.2.2.fileOf file).lane d =
    { (x.fileOf file).lane d with
      entries := ((x.fileOf file).lane d).entries.modify 0 Entry.promote }
  skipped : ∀ file, (x.fileOf file).cooldown? now ≠ none → r.2.2.fileOf file = x.fileOf file
  counts : r.2.2.counts = x.counts
  found : r.1.isSome ↔ ∃ k, Offered quantumBytes now x k
  oldest : ∀ k, r.1 = some k ↔ Offered quantumBytes now x k ∧
    ∀ k', Offered quantumBytes now x k' → k' = k ∨ Preferred x k k'
  wait : ∀ w, r.2.1 = some w ↔ IsLeast {v | Cooling now x v} w
  no_wait : r.2.1 = none ↔ ∀ w, ¬ Cooling now x w
  pos : r.2.1 ≠ some 0

theorem select_eq (quantumBytes now : Nat) (x : Index) :
    select quantumBytes now x = (firstLeast Candidate.arrival (offers quantumBytes now x),
      (waits now x).min?, scanIndex now x) := rfl

theorem fileOf_scanIndex (h : c.InStep) (now : Nat) (file : String) :
    (scanIndex now c.index).fileOf file = scanFile now (c.index.fileOf file) := by
  rw [scanIndex_eq h.index]
  exact Index.fileOf_mapAll c.index (fun f => (alike_scanFile now f).file) rfl (fun _ => rfl) file

theorem lane_scanFile_awake (awake : f.cooldown? now = none) (d : Direction) :
    (scanFile now f).lane d =
      { f.lane d with entries := (f.lane d).entries.modify 0 Entry.promote } := by
  cases idle : f.isIdle with
  | false =>
    have scanned : isScanned now f := by
      rw [isScanned, idle, awake]
      rfl
    rw [scanFile, if_pos scanned]
    cases d <;> rfl
  | true =>
    -- Nothing waits in the file, so there is no head to promote.
    have empty : (f.lane d).entries = [] := by
      by_contra used
      rw [isIdle_eq_false.mpr ⟨d, used⟩] at idle
      cases idle
    have passed_over : isScanned now f = false := by rw [isScanned, idle]; rfl
    rw [scanFile, passed_over, if_neg Bool.false_ne_true, empty]
    exact congrArg (fun entries => { f.lane d with entries := entries }) empty

theorem scanFile_cooling (cooling : f.cooldown? now ≠ none) : scanFile now f = f := by
  obtain ⟨w, hw⟩ := Option.ne_none_iff_exists'.mp cooling
  have passed_over : isScanned now f = false := by
    rw [isScanned, hw]
    exact Bool.and_false _
  rw [scanFile, passed_over, if_neg Bool.false_ne_true]

theorem select_selection (h : c.InStep) (quantumBytes now : Nat) :
    Selection quantumBytes now c.index (select quantumBytes now c.index) := by
  rw [select_eq]
  have order : (offers quantumBytes now c.index).Pairwise (Precedes c.index) :=
    offers_precede h.index.placed
  constructor
  case passed =>
    intro file d awake
    rw [fileOf_scanIndex h, lane_scanFile_awake awake]
  case skipped =>
    intro file cooling
    rw [fileOf_scanIndex h, scanFile_cooling cooling]
  case counts => rfl
  case found =>
    constructor
    · intro some_found
      obtain ⟨k, hk⟩ := Option.isSome_iff_exists.mp some_found
      exact ⟨k, (mem_offers h).mp (firstLeast_mem hk)⟩
    · rintro ⟨k, offered⟩
      obtain ⟨k', hk', -⟩ := exists_firstLeast (f := Candidate.arrival) ((mem_offers h).mpr offered)
      exact Option.isSome_iff_exists.mpr ⟨k', hk'⟩
  case oldest =>
    intro k
    change firstLeast Candidate.arrival (offers quantumBytes now c.index) = some k ↔ _
    rw [firstLeast_eq_some_iff order precedes_asymm]
    simp only [mem_offers h]
    rfl
  case wait =>
    intro w
    change (waits now c.index).min? = some w ↔ _
    rw [List.min?_eq_some_iff]
    constructor
    · rintro ⟨mem, least⟩
      exact ⟨(mem_waits h).mp mem, fun v cooling => least v ((mem_waits h).mpr cooling)⟩
    · rintro ⟨cooling, least⟩
      exact ⟨(mem_waits h).mpr cooling, fun v mem => least ((mem_waits h).mp mem)⟩
  case no_wait =>
    change (waits now c.index).min? = none ↔ _
    rw [List.min?_eq_none_iff, List.eq_nil_iff_forall_not_mem]
    exact forall_congr' fun w => not_congr (mem_waits h)
  case pos =>
    intro zero
    rw [← select_eq] at zero
    exact absurd (select_pos zero) (lt_irrefl 0)

end Burst

namespace System

end System

end IoScheduling
