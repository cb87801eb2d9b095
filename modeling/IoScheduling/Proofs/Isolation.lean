import IoScheduling.Proofs.Indexes
import IoScheduling.Service.Checksum
import Mathlib.Data.List.Sort
import Mathlib.Data.Prod.Lex

/-! # Queues do not disturb one another

Files share buckets, the two directions share the state of their file, and all of them share the
counts. A call on the index still works on the one queue it names and reads no other, so what a
queue holds and what its callers are told can be computed without the rest of the index. -/
namespace IoScheduling

namespace EntryView

def rank (v : EntryView) : String ×ₗ List Nat :=
  toLex (v.file, [if v.direction = .read then 0 else 1, v.offset, v.length, v.count])

theorem rank_injective : Function.Injective rank := by
  intro a b h
  obtain ⟨file, direction, offset, length, count⟩ := a
  obtain ⟨file', direction', offset', length', count'⟩ := b
  simp only [rank, EmbeddingLike.apply_eq_iff_eq, Prod.mk.injEq, List.cons.injEq] at h
  obtain ⟨rfl, side, rfl, rfl, rfl, -⟩ := h
  cases direction <;> cases direction' <;> simp_all

theorem le_iff (a b : EntryView) : a.le b = true ↔ a.rank ≤ b.rank := by
  unfold le rank
  rw [Prod.Lex.toLex_le_toLex]
  by_cases same : a.file = b.file
  · simp only [same, if_true, Bool.not_eq_true', List.lex_eq_false_iff_ge, lt_irrefl, false_or,
      true_and]
    exact not_lt
  · simp only [same, if_false, decide_eq_true_eq, false_and, or_false]

theorem mergeSort_eq_of_perm {vs ws : List EntryView} (h : vs.Perm ws) :
    vs.mergeSort le = ws.mergeSort le := by
  have sorted : ∀ us : List EntryView, (us.mergeSort le).Pairwise fun a b => a.le b = true := by
    refine List.pairwise_mergeSort (fun a b c hab hbc => ?_) fun a b => ?_
    · rw [le_iff] at hab hbc ⊢
      exact hab.trans hbc
    · rw [Bool.or_eq_true, le_iff, le_iff]
      exact le_total _ _
  refine List.Perm.eq_of_pairwise (fun a b _ _ hab hba => ?_) (sorted vs) (sorted ws) ?_
  · rw [le_iff] at hab hba
    exact rank_injective (hab.antisymm hba)
  · exact (List.mergeSort_perm vs le).trans (h.trans (List.mergeSort_perm ws le).symm)

end EntryView

namespace Lane

def Tallied (l : Lane) : Prop := l.requests = l.contents.card

variable {l l' : Lane} {e : Entry} {i : Nat} {a : Address} {r : Request}

theorem tallied_insert (h : l.Tallied) (e : Entry) (limit : Nat) :
    (l.insert e limit).1.Tallied := by
  unfold Tallied at h ⊢
  rw [contents_insert, Multiset.card_add, card_contents_entry, ← h]
  rfl

theorem tallied_detach? (h : l.Tallied) (hd : l.detach? i = some (e, l')) :
    l'.Tallied ∧ l'.requests + e.count = l.requests := by
  have left := congrArg Multiset.card (contents_detach? hd)
  rw [Multiset.card_add, card_contents_entry, ← h] at left
  have requests : l'.requests = l.requests - e.count := by rw [(detach?_some hd).2]
  unfold Tallied
  omega

theorem tallied_withdraw? (h : l.Tallied) (hw : l.withdraw? a = some (r, l')) :
    l'.Tallied ∧ l'.requests + 1 = l.requests := by
  have left := congrArg Multiset.card (contents_withdraw? hw)
  rw [Multiset.card_cons, ← h] at left
  obtain ⟨entries, -, same⟩ := withdraw?_some hw
  have requests : l'.requests = l.requests - 1 := by rw [same]
  unfold Tallied
  omega

end Lane

theorem FileState.insert_lanes (f : FileState) (e : Entry) (limit now : Nat) (c : PendingCounts) :
    (f.insert e limit now c).1.lane e.direction = ((f.lane e.direction).insert e limit).1 ∧
      (f.insert e limit now c).2.2 = ((f.lane e.direction).insert e limit).2 ∧
      ∀ d, d ≠ e.direction → (f.insert e limit now c).1.lane d = f.lane d := by
  have same := f.lane_activate e.count now c
  unfold insert
  dsimp only
  rw [lane_setLane, same]
  exact ⟨rfl, rfl, fun d other => (lane_setLane_of_ne _ _ other).trans (same d)⟩

namespace Index

inductive Call where
  | add (e : Entry) (limit now : Nat)
  | remove (a : Address)
  | take (file : String) (d : Direction) (i : Nat)

namespace Call

def file : Call → String
  | add e _ _ => e.file
  | remove a => a.file
  | take file _ _ => file

def direction : Call → Direction
  | add e _ _ => e.direction
  | remove a => a.direction
  | take _ d _ => d

/-- Whether the call names the queue of a file and a direction. -/
def names (file : String) (d : Direction) (c : Call) : Bool := c.file = file && c.direction = d

end Call

inductive Reply where
  | placed (p : Placement)
  | removed (r : Except Fault Request)
  | taken (e : Option Entry)

def perform (x : Index) : Call → Index × Reply
  | .add e limit now => ((x.insert e limit now).1, .placed (x.insert e limit now).2)
  | .remove a =>
    match x.withdraw a with
    | .ok (r, y) => (y, .removed (.ok r))
    | .error f => (x, .removed (.error f))
  | .take file d i =>
    match x.detach? file d i with
    | some (e, y) => (y, .taken (some e))
    | none => (x, .taken none)

def after (x : Index) (calls : List Call) : Index := calls.foldl (fun x c => (x.perform c).1) x

def replies (x : Index) : List Call → List (Call × Reply)
  | [] => []
  | c :: rest => (c, (x.perform c).2) :: (x.perform c).1.replies rest

def lane (x : Index) (file : String) (d : Direction) : Lane := (x.fileOf file).lane d

/-- What a call does to the queue it names. -/
def Call.onLane (c : Call) (l : Lane) : Lane × Reply :=
  match c with
  | .add e limit _ => ((l.insert e limit).1, .placed (l.insert e limit).2)
  | .remove a =>
    match l.withdraw? a with
    | some (r, l') => (l', .removed (.ok r))
    | none => (l, .removed (.error (.notFound a)))
  | .take _ _ i =>
    match l.detach? i with
    | some (e, l') => (l', .taken (some e))
    | none => (l, .taken none)

open FileState (Follows)

variable {x y : Index} {hash hash' : String → Nat} {size size' : Nat}

theorem detach?_none {file : String} {d : Direction} {i : Nat} (h : x.detach? file d i = none) :
    (x.lane file d).detach? i = none := by
  cases hf : x.file? file with
  | none =>
    rw [lane, fileOf_eq_fresh hf]
    cases d <;> rfl
  | some f =>
    have found : (x.bucketOf file).file? file = some f := hf
    simp only [detach?, Bucket.detach?, FileState.detach?, found, Option.bind_eq_bind,
      Option.bind_some, Option.map_eq_none_iff, Option.bind_eq_none_iff, Option.pure_def,
      reduceCtorEq, imp_false] at h
    rw [lane, fileOf_eq hf]
    exact Option.map_eq_none_iff.mp (Option.eq_none_iff_forall_ne_some.mpr h)

theorem withdraw_error {a : Address} {fault : Fault} (h : x.withdraw a = .error fault) :
    (x.lane a.file a.direction).withdraw? a = none ∧ fault = .notFound a := by
  unfold withdraw at h
  split at h
  · cases h
  rename_i hw
  refine ⟨?_, (Except.error.inj h).symm⟩
  cases hf : x.file? a.file with
  | none =>
    rw [lane, fileOf_eq_fresh hf]
    cases a.direction <;> rfl
  | some f =>
    have found : (x.bucketOf a.file).file? a.file = some f := hf
    simp only [Bucket.withdraw?, FileState.withdraw?, found, Option.bind_eq_bind,
      Option.bind_some, Option.bind_eq_none_iff, Option.pure_def, reduceCtorEq, imp_false] at hw
    rw [lane, fileOf_eq hf]
    exact Option.map_eq_none_iff.mp (Option.eq_none_iff_forall_ne_some.mpr hw)

/-- The counts are exact and nothing is on the timeline. -/
structure Kept (x : Index) : Prop where
  placed : x.Placed
  counted : x.Counted
  tallied : ∀ file d, (x.lane file d).Tallied
  offTimeline : ∀ file, x.onTimeline file = 0

theorem lane_withHash (hash : String → Nat) (size : Nat) (file : String) (d : Direction) :
    (withHash hash size).lane file d = .empty := by
  cases d <;> rfl

theorem kept_withHash (hash : String → Nat) (size : Nat) : (withHash hash size).Kept where
  placed := placed_withHash hash size
  counted := ⟨rfl, rfl⟩
  tallied := fun file d => by
    rw [lane_withHash]
    rfl
  offTimeline := fun _ => rfl

/-- One queue becomes `l`, every other stays as it is. -/
structure Exchanges (x y : Index) (file : String) (d : Direction) (l : Lane) : Prop where
  here : y.lane file d = l
  elsewhere : ∀ file' d', (file', d') ≠ (file, d) → y.lane file' d' = x.lane file' d'
  kept : x.Kept → y.Kept

theorem exchanges_refl (x : Index) (file : String) (d : Direction) :
    Exchanges x x file d (x.lane file d) :=
  ⟨rfl, fun _ _ _ => rfl, id⟩

variable {file : String} {d : Direction} {f : FileState} {c : PendingCounts} {l : Lane}

theorem exchanges_update (p : Nat) (name : f.file = file) (here : f.lane d = l)
    (opposite : ∀ d', d' ≠ d → f.lane d' = x.lane file d')
    (timeline : f.onTimeline = x.onTimeline file)
    (follows : x.Kept → l.Tallied ∧ Follows x.counts c (x.fileOf file) f) :
    Exchanges x ((x.update file f p).setCounts c) file d l := by
  have state : ∀ n, ((x.update file f p).setCounts c).fileOf n = if n = file then f else x.fileOf n :=
    fileOf_update x p name
  have this_lane : ((x.update file f p).setCounts c).lane file d = l := by
    rw [lane, state, if_pos rfl, here]
  have others : ∀ file' d', (file', d') ≠ (file, d) →
      ((x.update file f p).setCounts c).lane file' d' = x.lane file' d' := by
    intro file' d' other
    rw [lane, state]
    by_cases same : file' = file
    · rw [if_pos same, same]
      exact opposite d' fun e => other (by rw [same, e])
    · rw [if_neg same]
      rfl
  refine ⟨this_lane, others, fun h => ?_⟩
  obtain ⟨tallied, requests, files⟩ := follows h
  refine ⟨(placed_update h.placed name).setCounts c, ⟨?_, ?_⟩, fun file' d' => ?_, fun n => ?_⟩
  · have total := total_update h.placed name p FileState.pending_fresh
    have before := h.counted.requests
    change c.requests = (x.update file f p).total FileState.pending
    omega
  · have total := total_update h.placed name p FileState.live_fresh
    have before := h.counted.files
    change c.files = (x.update file f p).total FileState.live
    omega
  · by_cases same : (file', d') = (file, d)
    · obtain ⟨rfl, rfl⟩ := Prod.mk.inj same
      rwa [this_lane]
    · rw [others _ _ same]
      exact h.tallied file' d'
  · rw [onTimeline, state]
    split
    · rw [timeline, h.offTimeline]
    · exact h.offTimeline n

theorem exchanges_taken {n : Nat} (p : Nat) (pos : 0 < n)
    (left : (x.lane file d).Tallied → l.Tallied ∧ l.requests + n = (x.lane file d).requests) :
    let f := (x.fileOf file).setLane d l
    Exchanges x ((x.update file f p).setCounts (f.deactivate n x.counts)) file d l := by
  refine exchanges_update p ((FileState.file_setLane _ d l).trans (file_fileOf x file))
    (FileState.lane_setLane _ d l) (fun d' other => FileState.lane_setLane_of_ne _ l other)
    (FileState.onTimeline_setLane _ d l) fun h => ?_
  obtain ⟨tallied, fewer⟩ := left (h.tallied file d)
  refine ⟨tallied, FileState.follows_deactivate pos ?_ (h.counted.pending_le h.placed file)
    (h.counted.live_le h.placed file)⟩
  have lanes : ((x.fileOf file).setLane d l).inLanes + (x.lane file d).requests =
      (x.fileOf file).inLanes + l.requests := FileState.lanes_setLane Lane.requests _ d l
  rw [FileState.pending_eq, FileState.pending_eq, FileState.onTimeline_setLane]
  omega

theorem insert_exchanges (x : Index) (e : Entry) (limit now : Nat) :
    Exchanges x (x.insert e limit now).1 e.file e.direction
      ((x.lane e.file e.direction).insert e limit).1 := by
  let f := ((x.fileOf e.file).insert e limit now x.counts).1
  obtain ⟨name, -, -, -, timeline⟩ := (x.fileOf e.file).insert_frame e limit now x.counts
  obtain ⟨here, -, opposite⟩ := (x.fileOf e.file).insert_lanes e limit now x.counts
  refine exchanges_update (f := f) _ (name.trans (file_fileOf x e.file)) here opposite timeline
    fun h => ⟨?_, ?_⟩
  · exact Lane.tallied_insert (h.tallied _ _) e limit
  · exact FileState.follows_insert _ e limit now x.counts

theorem insert_snd (x : Index) (e : Entry) (limit now : Nat) :
    (x.insert e limit now).2 = ((x.lane e.file e.direction).insert e limit).2 :=
  ((x.fileOf e.file).insert_lanes e limit now x.counts).2.1

theorem detach?_exchanges {i : Nat} {e : Entry} (h : x.detach? file d i = some (e, y)) :
    ∃ l, (x.lane file d).detach? i = some (e, l) ∧ Exchanges x y file d l := by
  obtain ⟨f, c, -, hf, rfl⟩ := detach?_some h
  obtain ⟨l, hl, rfl, rfl⟩ := FileState.detach?_some hf
  exact ⟨l, hl, exchanges_taken _ e.count_pos fun ht => Lane.tallied_detach? ht hl⟩

theorem withdraw_exchanges {a : Address} {r : Request} (h : x.withdraw a = .ok (r, y)) :
    ∃ l, (x.lane a.file a.direction).withdraw? a = some (r, l) ∧
      Exchanges x y a.file a.direction l := by
  obtain ⟨f, c, hf, rfl⟩ := withdraw_ok h
  obtain ⟨l, hl, rfl, rfl⟩ := FileState.withdraw?_some hf
  exact ⟨l, hl, exchanges_taken _ Nat.one_pos fun ht => Lane.tallied_withdraw? ht hl⟩

theorem perform_onLane (x : Index) (c : Call) :
    (x.perform c).2 = (c.onLane (x.lane c.file c.direction)).2 ∧
      Exchanges x (x.perform c).1 c.file c.direction (c.onLane (x.lane c.file c.direction)).1 := by
  cases c with
  | add e limit now =>
    exact ⟨congrArg Reply.placed (x.insert_snd e limit now), x.insert_exchanges e limit now⟩
  | remove a =>
    cases h : x.withdraw a with
    | ok found =>
      obtain ⟨l, hl, step⟩ := withdraw_exchanges (r := found.1) (y := found.2) h
      simp only [perform, h, Call.onLane, Call.file, Call.direction, hl]
      exact ⟨trivial, step⟩
    | error fault =>
      obtain ⟨hl, rfl⟩ := withdraw_error h
      simp only [perform, h, Call.onLane, Call.file, Call.direction, hl]
      exact ⟨trivial, exchanges_refl x _ _⟩
  | take file d i =>
    cases h : x.detach? file d i with
    | some found =>
      obtain ⟨l, hl, step⟩ := detach?_exchanges (e := found.1) (y := found.2) h
      simp only [perform, h, Call.onLane, Call.file, Call.direction, hl]
      exact ⟨trivial, step⟩
    | none =>
      simp only [perform, h, Call.onLane, Call.file, Call.direction, detach?_none h]
      exact ⟨trivial, exchanges_refl x _ _⟩

theorem Kept.perform (h : x.Kept) (c : Call) : (x.perform c).1.Kept :=
  (x.perform_onLane c).2.kept h

theorem kept_after (hash : String → Nat) (size : Nat) (calls : List Call) :
    ((withHash hash size).after calls).Kept :=
  List.foldlRecOn calls _ (kept_withHash hash size) fun _ h c _ => h.perform c

theorem names_iff (c : Call) : c.names file d = true ↔ (file, d) = (c.file, c.direction) := by
  rw [Call.names, Bool.and_eq_true, decide_eq_true_eq, decide_eq_true_eq, Prod.mk.injEq, eq_comm,
    eq_comm (a := c.direction)]

/-- Only the calls that name a queue matter to it and to their callers. -/
theorem projection (calls : List Call) {x y : Index} (same : x.lane file d = y.lane file d) :
    (x.after calls).lane file d = (y.after (calls.filter (Call.names file d))).lane file d ∧
      (x.replies calls).filter (fun a => a.1.names file d) =
        y.replies (calls.filter (Call.names file d)) := by
  induction calls generalizing x y with
  | nil => exact ⟨same, rfl⟩
  | cons c rest ih =>
    obtain ⟨reply, step⟩ := x.perform_onLane c
    by_cases own : c.names file d = true
    · obtain ⟨rfl, rfl⟩ := Prod.mk.inj ((names_iff c).mp own)
      obtain ⟨reply', step'⟩ := y.perform_onLane c
      have next : (x.perform c).1.lane c.file c.direction = (y.perform c).1.lane c.file c.direction := by
        rw [step.here, step'.here, same]
      obtain ⟨lane, told⟩ := ih next
      rw [List.filter_cons_of_pos own]
      refine ⟨lane, ?_⟩
      rw [replies, replies, List.filter_cons, if_pos own, told, reply, reply', same]
    · have other : (file, d) ≠ (c.file, c.direction) := fun e => own ((names_iff c).mpr e)
      obtain ⟨lane, told⟩ := ih ((step.elsewhere _ _ other).trans same)
      rw [List.filter_cons_of_neg own]
      refine ⟨lane, ?_⟩
      rw [replies, List.filter_cons, if_neg own, told]

/-- Two indexes that cannot be told apart by what is pending in them. -/
structure Agree (x y : Index) : Prop where
  lanes : ∀ file d, x.lane file d = y.lane file d
  counts : x.counts = y.counts
  snapshot : x.snapshot = y.snapshot

theorem counts_eq_of_lanes (hx : x.Kept) (hy : y.Kept)
    (same : ∀ file d, x.lane file d = y.lane file d) : x.counts = y.counts := by
  have pending : ∀ n, (x.fileOf n).pending = (y.fileOf n).pending := by
    intro n
    have reads : (x.fileOf n).reads = (y.fileOf n).reads := same n .read
    have writes : (x.fileOf n).writes = (y.fileOf n).writes := same n .write
    have timeline : (x.fileOf n).onTimeline = (y.fileOf n).onTimeline :=
      (hx.offTimeline n).trans (hy.offTimeline n).symm
    rw [FileState.pending, FileState.pending, reads, writes, timeline]
  have live : ∀ n, (x.fileOf n).live = (y.fileOf n).live := by
    intro n
    rw [FileState.live, FileState.live, pending]
  have requests : x.counts.requests = y.counts.requests := by
    rw [hx.counted.requests, hy.counted.requests]
    exact total_congr hy.placed hx.placed FileState.pending_fresh FileState.pending_fresh pending
  have files : x.counts.files = y.counts.files := by
    rw [hx.counted.files, hy.counted.files]
    exact total_congr hy.placed hx.placed FileState.live_fresh FileState.live_fresh live
  calc x.counts = ⟨x.counts.requests, x.counts.files⟩ := rfl
    _ = y.counts := by rw [requests, files]

def viewsOf (f : FileState) : List EntryView :=
  Direction.all.flatMap fun d =>
    (f.lane d).entries.map fun e => ⟨f.file, d, e.offset, e.length, e.count⟩

theorem snapshot_eq_of_lanes (hx : x.Placed) (hy : y.Placed)
    (same : ∀ file d, x.lane file d = y.lane file d) : x.snapshot = y.snapshot := by
  have sum : ∀ fs : List FileState, ((fs.flatMap viewsOf : List EntryView) : Multiset EntryView) =
      (fs.map fun f => (viewsOf f : Multiset EntryView)).sum := by
    intro fs
    induction fs with
    | nil => rfl
    | cons f fs ih =>
      rw [List.flatMap_cons, ← Multiset.coe_add, ih]
      rfl
  have views : ∀ n, (viewsOf (x.fileOf n) : Multiset EntryView) = viewsOf (y.fileOf n) := by
    intro n
    have each : ∀ d, (x.fileOf n).lane d = (y.fileOf n).lane d := same n
    simp only [viewsOf, file_fileOf, each]
  have fresh : ∀ n, (viewsOf (.fresh n) : Multiset EntryView) = 0 := fun _ => rfl
  have perm : (x.files.flatMap viewsOf).Perm (y.files.flatMap viewsOf) := by
    rw [← Multiset.coe_eq_coe, sum, sum]
    exact total_congr hy hx fresh fresh views
  exact EntryView.mergeSort_eq_of_perm perm

theorem agree_of_lanes (hx : x.Kept) (hy : y.Kept)
    (same : ∀ file d, x.lane file d = y.lane file d) : x.Agree y :=
  ⟨same, counts_eq_of_lanes hx hy same, snapshot_eq_of_lanes hx.placed hy.placed same⟩

theorem agree_swap (h : x.Kept) {a b : Call} (apart : (a.file, a.direction) ≠ (b.file, b.direction)) :
    (x.after [a, b]).Agree (x.after [b, a]) ∧ (x.perform a).2 = ((x.perform b).1.perform a).2 ∧
      (x.perform b).2 = ((x.perform a).1.perform b).2 := by
  have step := fun c y => perform_onLane y c
  have lane_a : (x.perform b).1.lane a.file a.direction = x.lane a.file a.direction :=
    (step b x).2.elsewhere _ _ apart
  have lane_b : (x.perform a).1.lane b.file b.direction = x.lane b.file b.direction :=
    (step a x).2.elsewhere _ _ apart.symm
  refine ⟨agree_of_lanes ((h.perform a).perform b) ((h.perform b).perform a) fun file d => ?_, ?_, ?_⟩
  · change ((x.perform a).1.perform b).1.lane file d = ((x.perform b).1.perform a).1.lane file d
    by_cases ofA : (file, d) = (a.file, a.direction)
    · obtain ⟨rfl, rfl⟩ := Prod.mk.inj ofA
      rw [(step b _).2.elsewhere _ _ apart, (step a _).2.here, (step a _).2.here, lane_a]
    by_cases ofB : (file, d) = (b.file, b.direction)
    · obtain ⟨rfl, rfl⟩ := Prod.mk.inj ofB
      rw [(step a _).2.elsewhere _ _ apart.symm, (step b _).2.here, (step b _).2.here, lane_b]
    · rw [(step b _).2.elsewhere _ _ ofB, (step a _).2.elsewhere _ _ ofA,
        (step a _).2.elsewhere _ _ ofA, (step b _).2.elsewhere _ _ ofB]
  · rw [(step a _).1, (step a _).1, lane_a]
  · rw [(step b _).1, (step b _).1, lane_b]

/-- In an index of any number of buckets, whatever hash spreads the files over them, every queue
holds what it would hold if the calls that name it had been made alone on one bucket, and these
calls return the same. So adds to two queues commute, and neither the pending entries nor the
counts depend on the number of buckets. -/
theorem queues_isolated (hash : String → Nat) (size : Nat) (calls : List Call) :
    (∀ file d,
      let own := calls.filter (Call.names file d)
      ((withHash hash size).after calls).lane file d = ((withHash hash 1).after own).lane file d ∧
        ((withHash hash size).replies calls).filter (fun a => a.1.names file d) =
          (withHash hash 1).replies own) ∧
      (∀ e e' limit limit' now now', (e.file, e.direction) ≠ (e'.file, e'.direction) →
        let x := (withHash hash size).after calls
        let a := Call.add e limit now
        let b := Call.add e' limit' now'
        (x.after [a, b]).Agree (x.after [b, a]) ∧ (x.perform a).2 = ((x.perform b).1.perform a).2 ∧
          (x.perform b).2 = ((x.perform a).1.perform b).2) ∧
      ∀ size', ((withHash hash size).after calls).Agree ((withHash hash size').after calls) := by
  have fresh : ∀ size' file d,
      (withHash hash size').lane file d = (withHash hash 1).lane file d := by
    intro size' file d
    rw [lane_withHash, lane_withHash]
  refine ⟨fun file d => projection calls (fresh size file d),
    fun e e' limit limit' now now' apart => agree_swap (kept_after hash size calls) apart,
    fun size' => ?_⟩
  refine agree_of_lanes (kept_after hash size calls) (kept_after hash size' calls) fun file d => ?_
  exact (projection calls (fresh size file d)).1.trans (projection calls (fresh size' file d)).1.symm

/-- Two files that share the only bucket. -/
theorem adds_to_neighbours_commute :
    let e := Entry.single ⟨"f", .read, 0, 8, 0, 0, 0, 0, 0⟩
    let e' := Entry.single ⟨"g", .read, 8, 8, 0, 1, 0, 0, 0⟩
    let x := withHash fileHash 1
    (e.file, e.direction) ≠ (e'.file, e'.direction) ∧
      (x.after [.add e 4 0, .add e' 4 0]).Agree (x.after [.add e' 4 0, .add e 4 0]) ∧
      (x.after [.add e 4 0, .add e' 4 0]).counts = ⟨2, 2⟩ := by
  intro e e' x
  have apart : (e.file, e.direction) ≠ (e'.file, e'.direction) := by decide
  exact ⟨apart, ((queues_isolated fileHash 1 []).2.1 e e' 4 4 0 0 apart).1, by decide +kernel⟩

end Index

end IoScheduling
