import IoScheduling.Proofs.Notes

/-! # The views of a report agree

What has been dispatched is counted in three places: by the ledger as a whole, by the ledger for
each policy, and by the lanes from which it was dispatched. The counts are made in different calls
and cleared in different calls. Only a request that is passed through meets no lane; apart from
these, the three never differ. -/
namespace IoScheduling

open Index (Keeps)

theorem sumOf_eq_sum {α : Type} (f : α → Nat) (xs : List α) : sumOf f xs = (xs.map f).sum := by
  induction xs with
  | nil => rfl
  | cons a xs ih =>
    rw [List.map_cons, List.sum_cons, ← ih]
    rfl

theorem sumOf_perm {α : Type} (f : α → Nat) {xs ys : List α} (h : xs.Perm ys) :
    sumOf f xs = sumOf f ys := by
  rw [sumOf_eq_sum, sumOf_eq_sum]
  exact (h.map f).sum_eq

def PerPolicy.sum (t : PerPolicy Nat) : Nat := sumOf t.get PolicyKind.all

theorem PerPolicy.sum_replicate_zero : (replicate 0).sum = 0 := by
  rw [sum, sumOf_eq_sum, funext (get_replicate 0)]
  rfl

theorem PerPolicy.sum_modify (t : PerPolicy Nat) (k : PolicyKind) (n : Nat) :
    (t.modify k (· + n)).sum = t.sum + n := by
  have others : ∀ j, (t.modify k (· + n)).get j = t.get j + if k = j then n else 0 := by
    intro j
    rw [get_modify]
    split <;> rfl
  have once : (PolicyKind.all.map fun j => if k = j then n else 0).sum = n := by
    cases k <;> simp [PolicyKind.all]
  rw [sum, sum, sumOf_eq_sum, sumOf_eq_sum, funext others, List.sum_map_add, once]

theorem wrapWord_sumOf {α : Type} (f : α → Nat) (xs : List α) :
    wrapWord (sumOf (fun a => wrapWord (f a)) xs) = wrapWord (sumOf f xs) := by
  induction xs with
  | nil => rfl
  | cons a xs ih =>
    change (wrapWord (f a) + sumOf _ xs) % wordCount = (f a + sumOf f xs) % wordCount
    rw [Nat.add_mod, show sumOf _ xs % wordCount = sumOf f xs % wordCount from ih, wrapWord,
      Nat.mod_mod, ← Nat.add_mod]

theorem sumOf_filter_ne_zero {α : Type} (f : α → Nat) (xs : List α) :
    sumOf f (xs.filter fun a => f a ≠ 0) = sumOf f xs := by
  induction xs with
  | nil => rfl
  | cons a xs ih =>
    by_cases none : f a = 0
    · simp only [List.filter_cons, none, ne_eq, not_true_eq_false, decide_false]
      change _ = f a + sumOf f xs
      rw [none, Nat.zero_add]
      exact ih
    · simp only [List.filter_cons, ne_eq, none, not_false_eq_true, decide_true]
      change f a + sumOf f _ = f a + sumOf f xs
      rw [← ih]

structure Ledger.SameDispatches (l m : Ledger) : Prop where
  requests : m.dispatchedRequests = l.dispatchedRequests
  entries : m.dispatchedEntries = l.dispatchedEntries
  perPolicy : m.perPolicy = l.perPolicy

/-- No entry is empty, and an aggregation is an entry. -/
def AggregationTally.Ordered (t : AggregationTally) : Prop :=
  t.aggregations ≤ t.entries ∧ t.entries ≤ t.requests

theorem AggregationTally.Ordered.record {t : AggregationTally} (h : t.Ordered) {count : Nat}
    (some_request : 0 < count) : (t.record count).Ordered := by
  obtain ⟨aggregations, entries⟩ := h
  constructor
  · change (if 1 < count then t.aggregations + 1 else t.aggregations) ≤ t.entries + 1
    split <;> omega
  · change t.entries + 1 ≤ t.requests + count
    omega

def FileState.tallied (g : AggregationTally → Nat) (f : FileState) : Nat :=
  g f.reads.tally + g f.writes.tally

namespace Index

def tallied (g : AggregationTally → Nat) (x : Index) : Nat := x.total (FileState.tallied g)

variable {x y : Index} {g : AggregationTally → Nat}

theorem Keeps.tallied (h : Keeps Lane.tally x y) (hx : x.Placed) (hy : y.Placed)
    (zero : g .zero = 0) : y.tallied g = x.tallied g := by
  have fresh (n : String) : (FileState.fresh n).tallied g = 0 := by
    change g .zero + g .zero = 0
    rw [zero]
  apply total_congr hx hy fresh fresh
  intro n
  have reads : (y.fileOf n).reads.tally = (x.fileOf n).reads.tally := h n .read
  have writes : (y.fileOf n).writes.tally = (x.fileOf n).writes.tally := h n .write
  rw [FileState.tallied, FileState.tallied, reads, writes]

theorem tallied_recordDispatch (hx : x.Placed) (zero : g .zero = 0) {k : Nat} {e : Entry}
    (more : ∀ t : AggregationTally, g (t.record e.count) = g t + k) (name : String) (now : Nat)
    (inQuantum synchronous : Bool) :
    (x.setFile ((x.fileOf name).recordDispatch e now inQuantum synchronous)).tallied g =
      x.tallied g + k := by
  have frame := @FileState.recordDispatch_frame 0 (x.fileOf name) e now inQuantum synchronous
  obtain ⟨file, -, lanes, -, -⟩ := frame
  apply (setFile_rewrites (file.trans (file_fileOf x name)) lanes).total_add hx
  · intro n
    change g .zero + g .zero = 0
    rw [zero]
  · unfold FileState.recordDispatch FileState.modifyLane FileState.tallied
    cases e.direction with
    | read =>
      change g ((x.fileOf name).reads.tally.record e.count) + _ = _
      rw [more, Nat.add_right_comm]
      rfl
    | write =>
      change _ + g ((x.fileOf name).writes.tally.record e.count) = _
      rw [more, ← Nat.add_assoc]
      rfl

end Index

namespace Core

/-- The three counts of what has been dispatched since the last reset agree, `n` requests of it
having been passed through. -/
structure Tallied (n : Nat) (c : Core) : Prop where
  requests : c.ledger.dispatchedRequests = c.index.tallied AggregationTally.requests + n
  entries : c.ledger.dispatchedEntries = c.index.tallied AggregationTally.entries + n
  perPolicy : c.ledger.perPolicy.sum = c.ledger.dispatchedRequests
  ordered : ∀ name d, ((c.index.fileOf name).lane d).tally.Ordered

variable {c c' : Core} {n now : Nat} {a : Address}

theorem tallied_start (setup : Setup) : (start setup).Tallied 0 where
  requests := rfl
  entries := rfl
  perPolicy := PerPolicy.sum_replicate_zero
  ordered := by
    intro name d
    cases d <;> exact ⟨Nat.le_refl 0, Nat.le_refl 0⟩

theorem Tallied.still (h : c.Tallied n) (hc : c.index.Placed) (hc' : c'.index.Placed)
    (keeps : Keeps Lane.tally c.index c'.index) (same : c.ledger.SameDispatches c'.ledger) :
    c'.Tallied n where
  requests := by
    rw [same.requests, h.requests, keeps.tallied hc hc' rfl]
  entries := by
    rw [same.entries, h.entries, keeps.tallied hc hc' rfl]
  perPolicy := by
    rw [same.perPolicy, same.requests]
    exact h.perPolicy
  ordered := by
    intro name d
    rw [keeps name d]
    exact h.ordered name d

theorem Tallied.recordDispatch (h : c.Tallied n) (hc : c.index.Placed) (file : String) (e : Entry)
    (k : PolicyKind) (inQuantum : Bool) : (c.recordDispatch now file e k inQuantum).Tallied n where
  requests := by
    have more := Index.tallied_recordDispatch (g := AggregationTally.requests) hc rfl (e := e)
      (k := e.count) (fun _ => rfl) file now inQuantum k.profile.synchronous
    change c.ledger.dispatchedRequests + e.count = Index.tallied _ (c.index.setFile _) + n
    rw [h.requests, Nat.add_right_comm, ← more]
    rfl
  entries := by
    have more := Index.tallied_recordDispatch (g := AggregationTally.entries) hc rfl (e := e)
      (k := 1) (fun _ => rfl) file now inQuantum k.profile.synchronous
    change c.ledger.dispatchedEntries + 1 = Index.tallied _ (c.index.setFile _) + n
    rw [h.entries, Nat.add_right_comm, ← more]
    rfl
  perPolicy := by
    change (c.ledger.perPolicy.modify k (· + e.count)).sum = c.ledger.dispatchedRequests + e.count
    rw [PerPolicy.sum_modify, h.perPolicy]
  ordered := by
    intro name d
    change (((c.index.setFile ((c.index.fileOf file).recordDispatch e now inQuantum
      k.profile.synchronous)).fileOf name).lane d).tally.Ordered
    rw [Index.reading_recordDispatch Lane.tally]
    split
    · exact (h.ordered file e.direction).record e.count_pos
    · exact h.ordered name d

theorem enqueue_ledger (c : Core) (now : Nat) (r : Request) :
    (c.enqueue now r).1.ledger = c.ledger := by
  obtain ⟨_, _, form⟩ := c.enqueue_frame now r
  rw [form]

def passedBy (n : Nat) : Admission → Nat
  | .passThrough _ => n + 1
  | _ => n

theorem Tallied.submit (h : c.Tallied n) (inStep : c.InStep) (now : Nat) (call : Submission) :
    (c.submit now call).1.Tallied (passedBy n (c.submit now call).2) := by
  have placed := (submit_inStep inStep now call).index.placed
  unfold Core.submit at placed ⊢
  by_cases stopping : c.stopping
  · rw [if_pos stopping]
    exact h
  rw [if_neg stopping] at placed ⊢
  by_cases passing : c.active = .passThrough
  · simp only [if_pos passing]
    constructor
    case requests => exact congrArg (· + 1) h.requests
    case entries => exact congrArg (· + 1) h.entries
    case perPolicy =>
      change (c.ledger.perPolicy.modify .passThrough (· + 1)).sum = c.ledger.dispatchedRequests + 1
      rw [PerPolicy.sum_modify, h.perPolicy]
    case ordered => exact h.ordered
  · simp only [if_neg passing] at placed ⊢
    have ledger := enqueue_ledger { c with nextSeq := c.nextSeq + 1 } now (c.stamp now call)
    apply h.still inStep.index.placed placed
    · have unpending := FileState.unpending_through Lane.blind_tally.waiting
      exact (enqueue_reads unpending { c with nextSeq := c.nextSeq + 1 } now _).keeps
    · simp only [signalWork, ledger]
      exact ⟨rfl, rfl, rfl⟩

theorem Tallied.complete (h : c.Tallied n) (inStep : c.InStep) (now : Nat) (a : Address) :
    (c.complete now a).1.Tallied n := by
  have after := (complete_inStep inStep now a).index.placed
  obtain ⟨r, x, signal, hr, form⟩ | ⟨fault, -, form⟩ := c.complete_cases now a
  · have keeps := complete_keeps Lane.blind_tally (fun _ _ => rfl) c now a
    rw [form] at after keeps ⊢
    exact h.still inStep.index.placed after keeps ⟨rfl, rfl, rfl⟩
  · rw [form] at after ⊢
    by_cases passing : c.active = .passThrough
    · rw [if_pos passing]
      exact h
    · rw [if_neg passing]
      exact h.still inStep.index.placed inStep.index.placed (.refl _ _) ⟨rfl, rfl, rfl⟩

theorem Tallied.dispatch? {file : String} {d : Direction} {i : Nat} {k : PolicyKind}
    {inQuantum : Bool} {requests : List Request} (h : c.Tallied n) (inStep : c.InStep)
    (hd : c.dispatch? now file d i k inQuantum = some (requests, c')) : c'.Tallied n := by
  obtain ⟨⟨e, index⟩, he, same⟩ := Option.map_eq_some_iff.mp hd
  obtain ⟨rfl, rfl⟩ := Prod.mk.inj same
  have placed := (InStep.detach? inStep he).1.index.placed
  have left : Tallied n { c with index := index } :=
    h.still inStep.index.placed placed (Index.detach?_keeps Lane.blind_tally he) ⟨rfl, rfl, rfl⟩
  exact left.recordDispatch placed file e k inQuantum

theorem Tallied.dispatchHead? {k : PolicyKind} {requests : List Request} (h : c.Tallied n)
    (inStep : c.InStep) (hd : c.dispatchHead? now k = some (requests, c')) : c'.Tallied n := by
  obtain ⟨⟨e, timeline⟩, he, same⟩ := Option.map_eq_some_iff.mp hd
  obtain ⟨rfl, rfl⟩ := Prod.mk.inj same
  let x := c.index.noteTimelineRemove e.file e.count
  have placed : x.Placed := (InStep.pop? inStep he).1.index.placed
  have left : Tallied n { c with index := x, timeline := timeline } :=
    h.still inStep.index.placed placed
      (Index.noteTimelineRemove_keeps Lane.tally c.index e.file e.count) ⟨rfl, rfl, rfl⟩
  exact left.recordDispatch placed e.file e k false

theorem tallied_resetStatistics (c : Core) : c.resetStatistics.Tallied 0 := by
  have cleared (g : AggregationTally → Nat) (zero : ∀ t : AggregationTally, g t.reset = 0) :
      c.index.resetTallies.tallied g = 0 := by
    have files : c.index.resetTallies.files = c.index.files.map FileState.resetTallies :=
      Index.files_mapAll c.index
    rw [Index.tallied, Index.total, files, List.map_map]
    apply List.sum_eq_zero
    intro t ht
    obtain ⟨f, -, rfl⟩ := List.mem_map.mp ht
    change g f.reads.tally.reset + g f.writes.tally.reset = 0
    rw [zero, zero]
  constructor
  case requests => exact (cleared AggregationTally.requests fun _ => rfl).symm
  case entries => exact (cleared AggregationTally.entries fun _ => rfl).symm
  case perPolicy => exact PerPolicy.sum_replicate_zero
  case ordered =>
    intro name d
    have file : c.index.resetTallies.fileOf name = (c.index.fileOf name).resetTallies :=
      Index.fileOf_mapAll (g := FileState.resetTallies) (q := Bucket.pending) c.index
        (fun _ => rfl) rfl (fun _ => rfl) name
    change ((c.index.resetTallies.fileOf name).lane d).tally.Ordered
    rw [file]
    cases d <;> exact ⟨Nat.le_refl 0, Nat.le_refl 0⟩

end Core

def FileSnapshot.pending (f : FileSnapshot) : Nat := f.pendingReads + f.pendingWrites + f.onTimeline

def Report.recorded (g : AggregationTally → Nat) (r : Report) : Nat :=
  sumOf (fun f => g f.reads + g f.writes) r.files

/-- What the views of a report have to do with one another, after `passed` requests have been passed
through. Three of the equations are between counters, which the reading of the ledger shows as
64-bit registers. -/
structure Report.Agrees (r : Report) (l : Ledger) (passed : Nat) : Prop where
  pendingRequests : r.pendingRequests = sumOf FileSnapshot.pending r.files
  pendingFiles : r.pendingFiles = r.files.countP fun f => f.pending ≠ 0
  ledger : r.ledger = l.snapshot
  perPolicy : l.perPolicy.sum = l.dispatchedRequests
  requests : r.recorded AggregationTally.requests + passed = l.dispatchedRequests
  entries : r.recorded AggregationTally.entries + passed = l.dispatchedEntries
  shownPerPolicy : wrapWord (sumOf Prod.snd r.ledger.perPolicy) = r.ledger.dispatchedRequests
  shownRequests : wrapWord (r.recorded AggregationTally.requests + passed) =
    r.ledger.dispatchedRequests
  shownEntries : wrapWord (r.recorded AggregationTally.entries + passed) =
    r.ledger.dispatchedEntries
  /-- Below the range of a register the shown numbers are the counted ones. -/
  exactly : l.dispatchedRequests < wordCount →
    sumOf Prod.snd r.ledger.perPolicy = r.ledger.dispatchedRequests ∧
    r.recorded AggregationTally.requests + passed = r.ledger.dispatchedRequests ∧
    r.recorded AggregationTally.entries + passed = r.ledger.dispatchedEntries
  records : ∀ f ∈ r.files, f.reads.Ordered ∧ f.writes.Ordered
  names : r.files.Pairwise fun f g => f.file < g.file

namespace Index

variable {x : Index}

theorem fileSnapshots_perm (x : Index) :
    x.fileSnapshots.Perm (x.files.map FileState.snapshot) :=
  List.mergeSort_perm _ _

theorem sumOf_fileSnapshots (x : Index) (μ : FileSnapshot → Nat) :
    sumOf μ x.fileSnapshots = x.total fun f => μ f.snapshot := by
  rw [sumOf_perm μ x.fileSnapshots_perm, sumOf_eq_sum, List.map_map]
  rfl

theorem fileSnapshots_names (h : x.Placed) :
    x.fileSnapshots.Pairwise fun f g => f.file < g.file := by
  have sorted : x.fileSnapshots.Pairwise fun f g => decide (f.file ≤ g.file) = true := by
    apply List.pairwise_mergeSort
    · intro a b c hab hbc
      exact decide_eq_true ((of_decide_eq_true hab).trans (of_decide_eq_true hbc))
    · intro a b
      simpa using Std.le_total (a := a.file) (b := b.file)
  have distinct : x.fileSnapshots.Pairwise fun f g => f.file ≠ g.file := by
    have names : (x.fileSnapshots.map FileSnapshot.file).Nodup := by
      rw [(x.fileSnapshots_perm.map FileSnapshot.file).nodup_iff, List.map_map]
      exact nodup_names h
    exact List.pairwise_map.mp names
  apply (sorted.and distinct).imp
  intro f g both
  exact lt_of_le_of_ne (of_decide_eq_true both.1) both.2

end Index

namespace Core

variable {c : Core} {n : Nat}

theorem recorded_report (c : Core) (g : AggregationTally → Nat) :
    c.report.recorded g = c.index.tallied g :=
  c.index.sumOf_fileSnapshots fun f => g f.reads + g f.writes

theorem sumOf_shown (l : Ledger) : sumOf Prod.snd l.snapshot.perPolicy =
    sumOf (fun k => wrapWord (l.perPolicy.get k)) PolicyKind.all :=
  sumOf_filter_ne_zero Prod.snd (PolicyKind.all.map fun k => (k, wrapWord (l.perPolicy.get k)))

theorem sumOf_shown_eq {l : Ledger} (h : l.perPolicy.sum < wordCount) :
    sumOf Prod.snd l.snapshot.perPolicy = l.perPolicy.sum := by
  rw [sumOf_shown, PerPolicy.sum, sumOf_eq_sum, sumOf_eq_sum]
  congr 1
  apply List.map_congr_left
  intro k hk
  apply wrapWord_eq
  have part : l.perPolicy.get k ≤ l.perPolicy.sum := by
    rw [PerPolicy.sum, sumOf_eq_sum]
    exact List.le_sum_of_mem (List.mem_map_of_mem hk)
  exact part.trans_lt h

theorem Tallied.stored (h : c.Tallied n) (inStep : c.InStep) {f : FileState}
    (hf : f ∈ c.index.files) (d : Direction) : (f.lane d).tally.Ordered := by
  have ordered := h.ordered f.file d
  rwa [Index.fileOf_of_mem inStep.index.placed hf] at ordered

theorem Tallied.entries_le (h : c.Tallied n) (inStep : c.InStep) :
    c.ledger.dispatchedEntries ≤ c.ledger.dispatchedRequests := by
  have sums : c.index.tallied AggregationTally.entries ≤
      c.index.tallied AggregationTally.requests := by
    apply List.sum_le_sum
    intro f hf
    exact Nat.add_le_add (h.stored inStep hf .read).2 (h.stored inStep hf .write).2
  rw [h.entries, h.requests]
  exact Nat.add_le_add_right sums n

theorem Tallied.agrees (h : c.Tallied n) (inStep : c.InStep) : c.report.Agrees c.ledger n := by
  have requests : c.report.recorded AggregationTally.requests + n = c.ledger.dispatchedRequests := by
    rw [recorded_report, h.requests]
  have entries : c.report.recorded AggregationTally.entries + n = c.ledger.dispatchedEntries := by
    rw [recorded_report, h.entries]
  constructor
  case pendingRequests =>
    exact inStep.counted.requests.trans (c.index.sumOf_fileSnapshots FileSnapshot.pending).symm
  case pendingFiles =>
    have live : c.report.pendingFiles = _ := inStep.exact.files
    rw [live, report, c.index.fileSnapshots_perm.countP_eq, List.countP_map]
    apply List.countP_congr
    intro f _
    simp only [decide_eq_true_eq, Function.comp_apply, Nat.pos_iff_ne_zero]
    rfl
  case ledger => rfl
  case perPolicy => exact h.perPolicy
  case requests => exact requests
  case entries => exact entries
  case shownPerPolicy =>
    change wrapWord (sumOf Prod.snd c.ledger.snapshot.perPolicy) =
      wrapWord c.ledger.dispatchedRequests
    rw [sumOf_shown, wrapWord_sumOf, ← h.perPolicy]
    rfl
  case shownRequests => exact congrArg wrapWord requests
  case shownEntries => exact congrArg wrapWord entries
  case exactly =>
    intro below
    have shown : c.report.ledger.dispatchedRequests = c.ledger.dispatchedRequests :=
      wrapWord_eq below
    have shown_entries : c.report.ledger.dispatchedEntries = c.ledger.dispatchedEntries :=
      wrapWord_eq ((h.entries_le inStep).trans_lt below)
    rw [shown, shown_entries]
    refine ⟨?_, requests, entries⟩
    rw [← h.perPolicy] at below ⊢
    exact sumOf_shown_eq below
  case records =>
    intro r hr
    obtain ⟨f, hf, rfl⟩ := List.mem_map.mp (c.index.fileSnapshots_perm.mem_iff.mp hr)
    exact ⟨h.stored inStep hf .read, h.stored inStep hf .write⟩
  case names => exact Index.fileSnapshots_names inStep.index.placed

end Core

namespace System

def passedSince (s : System) (n : Nat) : Action → Nat
  | .submit now call => Core.passedBy n (s.core.submit now call).2
  | .reset => 0
  | _ => n

/-- The requests passed through by a run since its last reset, `n` at its start. -/
def passings (s : System) (n : Nat) : List Action → Nat
  | [] => n
  | a :: actions => passings (s.act a) (s.passedSince n a) actions

variable {s : System} {n : Nat}

theorem dispatched_tallied (h : s.core.Tallied n) {outcome : Option (List Request × Core)}
    (held : ∀ requests c, outcome = some (requests, c) → c.Tallied n) :
    (s.dispatched outcome).core.Tallied n := by
  cases outcome with
  | none => exact h
  | some result => exact held result.1 result.2 rfl

theorem act_tallied (h : s.core.Tallied n) (inStep : s.core.InStep) (a : Action) :
    (s.act a).core.Tallied (s.passedSince n a) := by
  have after := (act_inStep inStep a).index.placed
  have before := inStep.index.placed
  cases a with
  | submit now call =>
    change (s.submit now call).core.Tallied _
    rw [core_submit]
    exact h.submit inStep now call
  | settle i =>
    change (s.settle i).core.Tallied n
    unfold settle
    split
    · exact h
    · exact h.still before before (.refl _ _) ⟨rfl, rfl, rfl⟩
  | complete now a => exact h.complete inStep now a
  | cancel a =>
    change (s.cancel a).core.Tallied n
    change (s.cancel a).core.index.Placed at after
    rw [core_cancel] at after ⊢
    unfold Core.cancel at after ⊢
    cases hd : s.core.dequeue a with
    | error fault => exact h.still before before (.refl _ _) ⟨rfl, rfl, rfl⟩
    | ok result =>
      rw [hd] at after
      have ledger : result.2.ledger = s.core.ledger := by
        obtain ⟨-, x, -, form⟩ | ⟨-, t, -, form⟩ := Core.dequeue_ok hd <;> rw [form]
      have keeps : Keeps Lane.tally s.core.index result.2.index :=
        Core.dequeue_keeps Lane.blind_tally hd
      apply h.still before after keeps
      change s.core.ledger.SameDispatches result.2.ledger.recordCancelled
      rw [ledger]
      exact ⟨rfl, rfl, rfl⟩
  | migrate k =>
    obtain ⟨⟨x, t, form⟩, -⟩ := Core.migrate_effect inStep k
    apply h.still before after (Core.migrate_keeps Lane.blind_tally inStep k)
    change s.core.ledger.SameDispatches (s.core.migrate k).ledger
    rw [form]
    exact ⟨rfl, rfl, rfl⟩
  | dispatch now file d i k inQuantum =>
    exact dispatched_tallied h fun _ _ hd => h.dispatch? inStep hd
  | dispatchHead now k => exact dispatched_tallied h fun _ _ hd => h.dispatchHead? inStep hd
  | handOver i =>
    change (s.handOver i).core.Tallied n
    unfold handOver
    split <;> exact h
  | steer file t =>
    obtain ⟨x, form, -⟩ := Core.steer_effect inStep file t
    apply h.still before after (Core.steer_keeps Lane.blind_tally s.core file t)
    change s.core.ledger.SameDispatches (s.core.steer file t).ledger
    rw [form]
    exact ⟨rfl, rfl, rfl⟩
  | stop => exact h.still before before (.refl _ _) ⟨rfl, rfl, rfl⟩
  | reset => exact Core.tallied_resetStatistics s.core

theorem foldl_tallied (h : s.core.Tallied n) (inStep : s.core.InStep) (actions : List Action) :
    (actions.foldl act s).core.Tallied (passings s n actions) := by
  induction actions generalizing s n with
  | nil => exact h
  | cons a actions ih => exact ih (act_tallied h inStep a) (act_inStep inStep a)

/-- After every run the views of the report agree, wherever in it the statistics were reset. -/
theorem run_report_agrees (setup : Setup) (actions : List Action) :
    (run setup actions).core.report.Agrees (run setup actions).core.ledger
      (passings (start setup) 0 actions) := by
  have tallied : (run setup actions).core.Tallied (passings (start setup) 0 actions) :=
    foldl_tallied (Core.tallied_start setup) (Core.inStep_start setup) actions
  exact tallied.agrees (run_inStep setup actions)

end System

end IoScheduling
