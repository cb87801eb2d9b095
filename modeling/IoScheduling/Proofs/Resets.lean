import IoScheduling.Policy.Basic
import IoScheduling.Proofs.Indexes

/-! # What a reset leaves alone

A reset of the statistics clears the ledger and the counts of every lane, but not the sizes by which
a lane decides to wait. Two cores that differ only in what a reset clears are alike, and no call and
no policy tells them apart. Below the core a reset commutes with every operation; only a dispatch
adds to the counts, so there it has to be repeated. -/
namespace IoScheduling

namespace Lane

def reset (l : Lane) : Lane := { l with tally := l.tally.reset }

variable (l : Lane)

theorem insert_reset (e : Entry) (limit : Nat) :
    l.reset.insert e limit = ((l.insert e limit).1.reset, (l.insert e limit).2) := rfl

theorem detach?_reset (i : Nat) :
    l.reset.detach? i = (l.detach? i).map fun (e, l) => (e, l.reset) := by
  unfold detach? reset
  cases l.entries[i]? <;> rfl

theorem withdraw?_reset (a : Address) :
    l.reset.withdraw? a = (l.withdraw? a).map fun (r, l) => (r, l.reset) := by
  unfold withdraw? reset
  cases OffsetQueue.withdraw l.entries a <;> rfl

theorem release?_reset (a : Address) :
    l.reset.release? a = (l.release? a).map fun (h, l) => (h, l.reset) := by
  unfold release? reset
  cases l.handedOut.findIdx? (·.request.matchesRange a) with
  | none => rfl
  | some i => cases h : l.handedOut[i]? <;> simp [h]

theorem recordDispatch_reset (e : Entry) (now : Nat) (inQuantum synchronous : Bool) :
    (l.reset.recordDispatch e now inQuantum synchronous).reset =
      (l.recordDispatch e now inQuantum synchronous).reset := rfl

end Lane

namespace FileState

variable (f : FileState)

@[simp] theorem lane_resetTallies (d : Direction) : f.resetTallies.lane d = (f.lane d).reset := by
  cases d <;> rfl

@[simp] theorem resetTallies_resetTallies : f.resetTallies.resetTallies = f.resetTallies := rfl

@[simp] theorem pending_resetTallies : f.resetTallies.pending = f.pending := rfl

theorem setLane_reset (d : Direction) (l : Lane) :
    f.resetTallies.setLane d l.reset = (f.setLane d l).resetTallies := by
  cases d <;> rfl

theorem modifyLane_reset (d : Direction) {g h : Lane → Lane}
    (same : g (f.lane d).reset = (h (f.lane d)).reset) :
    f.resetTallies.modifyLane d g = (f.modifyLane d h).resetTallies := by
  unfold modifyLane
  rw [lane_resetTallies, same, setLane_reset]

theorem activate_reset (n now : Nat) (c : PendingCounts) :
    f.resetTallies.activate n now c =
      ((f.activate n now c).1.resetTallies, (f.activate n now c).2) := by
  unfold activate
  rw [pending_resetTallies]
  split <;> rfl

theorem insert_reset (e : Entry) (limit now : Nat) (c : PendingCounts) :
    f.resetTallies.insert e limit now c =
      ((f.insert e limit now c).1.resetTallies, (f.insert e limit now c).2) := by
  unfold insert
  rw [activate_reset]
  dsimp only
  rw [lane_resetTallies, Lane.insert_reset, setLane_reset]

theorem adopt_reset (e : Entry) (limit : Nat) :
    f.resetTallies.adopt e limit = ((f.adopt e limit).1.resetTallies, (f.adopt e limit).2) := by
  unfold adopt
  dsimp only
  rw [lane_resetTallies, Lane.insert_reset, setLane_reset]

theorem detach?_reset (d : Direction) (i : Nat) (c : PendingCounts) :
    f.resetTallies.detach? d i c =
      (f.detach? d i c).map fun (e, f, c) => (e, f.resetTallies, c) := by
  unfold detach?
  rw [lane_resetTallies, Lane.detach?_reset]
  cases (f.lane d).detach? i with
  | none => rfl
  | some found =>
    simp only [Option.map_some, setLane_reset]
    rfl

theorem withdraw?_reset (a : Address) (c : PendingCounts) :
    f.resetTallies.withdraw? a c =
      (f.withdraw? a c).map fun (r, f, c) => (r, f.resetTallies, c) := by
  unfold withdraw?
  rw [lane_resetTallies, Lane.withdraw?_reset]
  cases (f.lane a.direction).withdraw? a with
  | none => rfl
  | some found =>
    simp only [Option.map_some, setLane_reset]
    rfl

theorem release?_reset (a : Address) :
    f.resetTallies.release? a = (f.release? a).map fun (h, f) => (h, f.resetTallies) := by
  unfold release?
  rw [lane_resetTallies, Lane.release?_reset]
  cases (f.lane a.direction).release? a with
  | none => rfl
  | some found => simp only [Option.map_some, setLane_reset]

theorem noteTimelineAdd_reset (n now : Nat) (c : PendingCounts) :
    f.resetTallies.noteTimelineAdd n now c =
      ((f.noteTimelineAdd n now c).1.resetTallies, (f.noteTimelineAdd n now c).2) := by
  unfold noteTimelineAdd
  rw [activate_reset]
  rfl

theorem noteTimelineRemove_reset (n : Nat) (c : PendingCounts) :
    f.resetTallies.noteTimelineRemove n c =
      ((f.noteTimelineRemove n c).1.resetTallies, (f.noteTimelineRemove n c).2) := rfl

theorem recordDispatch_reset (e : Entry) (now : Nat) (inQuantum synchronous : Bool) :
    (f.resetTallies.recordDispatch e now inQuantum synchronous).resetTallies =
      (f.recordDispatch e now inQuantum synchronous).resetTallies := by
  unfold recordDispatch modifyLane
  rw [lane_resetTallies, ← setLane_reset, ← setLane_reset, Lane.recordDispatch_reset,
    resetTallies_resetTallies]

theorem expire_reset (now : Nat) :
    f.resetTallies.expire now = (f.expire now).resetTallies := rfl

theorem arm_reset (e : Entry) (wait now : Nat) :
    f.resetTallies.arm e wait now = (f.arm e wait now).resetTallies := rfl

theorem holdback?_reset (setup : Setup) (d : Direction) (i now : Nat) :
    f.resetTallies.holdback? setup d i now = f.holdback? setup d i now := by
  unfold holdback?
  rw [lane_resetTallies]
  rfl

end FileState

theorem Keyed.put_map {α κ : Type} [DecidableEq κ] [LT κ] [DecidableLT κ] {key : α → κ} {g : α → α}
    (same : ∀ a, key (g a) = key a) (xs : List α) (a : α) :
    put key (xs.map g) (g a) = (put key xs a).map g := by
  induction xs with
  | nil => rfl
  | cons x rest ih =>
    rw [List.map_cons]
    unfold put
    rw [same, same]
    split
    · rfl
    · split
      · rfl
      · rw [List.map_cons, ih]

namespace Bucket

def reset (b : Bucket) : Bucket := { b with files := b.files.map FileState.resetTallies }

variable (b : Bucket)

theorem file?_reset (name : String) :
    b.reset.file? name = (b.file? name).map FileState.resetTallies := by
  unfold file? reset
  rw [List.find?_map]
  rfl

theorem fileOrFresh_reset (name : String) :
    b.reset.fileOrFresh name = (b.fileOrFresh name).resetTallies := by
  unfold fileOrFresh
  rw [file?_reset]
  cases b.file? name <;> rfl

theorem set_reset (f : FileState) : b.reset.set f.resetTallies = (b.set f).reset := by
  have put := Keyed.put_map (g := FileState.resetTallies) (fun _ => rfl : ∀ f, FileState.file _ = _)
    b.files f
  exact congrArg (fun files => { b with files := files }) put

theorem insert_reset (e : Entry) (limit now : Nat) (c : PendingCounts) :
    b.reset.insert e limit now c =
      ((b.insert e limit now c).1.reset, (b.insert e limit now c).2) := by
  unfold insert
  rw [fileOrFresh_reset, FileState.insert_reset]
  dsimp only
  rw [set_reset]
  rfl

theorem adopt_reset (e : Entry) (limit : Nat) :
    b.reset.adopt e limit = ((b.adopt e limit).1.reset, (b.adopt e limit).2) := by
  unfold adopt
  rw [fileOrFresh_reset, FileState.adopt_reset]
  dsimp only
  rw [set_reset]
  rfl

theorem detach?_reset (file : String) (d : Direction) (i : Nat) (c : PendingCounts) :
    b.reset.detach? file d i c = (b.detach? file d i c).map fun (e, b, c) => (e, b.reset, c) := by
  unfold detach?
  rw [file?_reset]
  cases b.file? file with
  | none => rfl
  | some f =>
    simp only [Option.map_some, Option.bind_eq_bind, Option.bind_some, FileState.detach?_reset]
    cases f.detach? d i c with
    | none => rfl
    | some found =>
      simp only [Option.map_some, Option.bind_some, set_reset]
      rfl

theorem withdraw?_reset (a : Address) (c : PendingCounts) :
    b.reset.withdraw? a c = (b.withdraw? a c).map fun (r, b, c) => (r, b.reset, c) := by
  unfold withdraw?
  rw [file?_reset]
  cases b.file? a.file with
  | none => rfl
  | some f =>
    simp only [Option.map_some, Option.bind_eq_bind, Option.bind_some, FileState.withdraw?_reset]
    cases f.withdraw? a c with
    | none => rfl
    | some found =>
      simp only [Option.map_some, Option.bind_some, set_reset]
      rfl

theorem release?_reset (a : Address) :
    b.reset.release? a = (b.release? a).map fun (h, b) => (h, b.reset) := by
  unfold release?
  rw [file?_reset]
  cases b.file? a.file with
  | none => rfl
  | some f =>
    simp only [Option.map_some, Option.bind_eq_bind, Option.bind_some, FileState.release?_reset]
    cases f.release? a with
    | none => rfl
    | some found =>
      simp only [Option.map_some, Option.bind_some, set_reset]
      rfl

theorem drain_reset : b.reset.drain = (b.drain.1, b.drain.2.reset) := by
  unfold drain reset
  simp only [List.flatMap_map, List.map_map]
  rfl

end Bucket

namespace Index

variable (x : Index)

@[simp] theorem resetTallies_resetTallies : x.resetTallies.resetTallies = x.resetTallies := by
  simp only [resetTallies, mapFiles, mapBuckets, List.map_map, Function.comp_def,
    FileState.resetTallies_resetTallies]

theorem counts_resetTallies : x.resetTallies.counts = x.counts := rfl

theorem bucket_resetTallies (i : Nat) : x.resetTallies.bucket i = (x.bucket i).reset :=
  bucket_mapAll (q := Bucket.pending) x rfl i

theorem bucketOf_resetTallies (name : String) :
    x.resetTallies.bucketOf name = (x.bucketOf name).reset :=
  x.bucket_resetTallies (x.slotOf name)

theorem file?_resetTallies (name : String) :
    x.resetTallies.file? name = (x.file? name).map FileState.resetTallies := by
  unfold file?
  rw [bucketOf_resetTallies, Bucket.file?_reset]

theorem setBucketOf_reset (name : String) (b : Bucket) :
    x.resetTallies.setBucketOf name b.reset = (x.setBucketOf name b).resetTallies := by
  have put := Keyed.put_map (g := fun a : Nat × Bucket => (a.1, a.2.reset))
    (fun _ => rfl : ∀ a, Prod.fst _ = _) x.buckets (x.slotOf name, b)
  exact congrArg (fun buckets => { x with buckets := buckets }) put

theorem setFile_reset (f : FileState) :
    x.resetTallies.setFile f.resetTallies = (x.setFile f).resetTallies := by
  unfold setFile
  rw [show f.resetTallies.file = f.file from rfl, bucketOf_resetTallies, Bucket.set_reset,
    setBucketOf_reset]

theorem insert_reset (e : Entry) (limit now : Nat) :
    x.resetTallies.insert e limit now =
      ((x.insert e limit now).1.resetTallies, (x.insert e limit now).2) := by
  unfold insert
  rw [bucketOf_resetTallies, counts_resetTallies, Bucket.insert_reset]
  dsimp only
  rw [setBucketOf_reset]
  rfl

theorem adopt_reset (e : Entry) (limit : Nat) :
    x.resetTallies.adopt e limit =
      ((x.adopt e limit).1.resetTallies, (x.adopt e limit).2) := by
  unfold adopt
  rw [bucketOf_resetTallies, Bucket.adopt_reset]
  dsimp only
  rw [setBucketOf_reset]

theorem detach?_reset (file : String) (d : Direction) (i : Nat) :
    x.resetTallies.detach? file d i =
      (x.detach? file d i).map fun (e, x) => (e, x.resetTallies) := by
  unfold detach?
  rw [bucketOf_resetTallies, counts_resetTallies, Bucket.detach?_reset]
  cases (x.bucketOf file).detach? file d i x.counts with
  | none => rfl
  | some found =>
    simp only [Option.map_some, setBucketOf_reset]
    rfl

theorem withdraw_reset (a : Address) :
    x.resetTallies.withdraw a = (x.withdraw a).map fun (r, x) => (r, x.resetTallies) := by
  unfold withdraw
  rw [bucketOf_resetTallies, counts_resetTallies, Bucket.withdraw?_reset]
  cases (x.bucketOf a.file).withdraw? a x.counts with
  | none => rfl
  | some found =>
    simp only [Option.map_some, setBucketOf_reset]
    rfl

theorem release_reset (a : Address) :
    x.resetTallies.release a = (x.release a).map fun (h, x) => (h, x.resetTallies) := by
  unfold release
  rw [bucketOf_resetTallies, Bucket.release?_reset]
  cases (x.bucketOf a.file).release? a with
  | none => rfl
  | some found =>
    simp only [Option.map_some, setBucketOf_reset]
    rfl

theorem noteTimelineAdd_reset (file : String) (n now : Nat) :
    x.resetTallies.noteTimelineAdd file n now = (x.noteTimelineAdd file n now).resetTallies := by
  unfold noteTimelineAdd
  dsimp only
  rw [bucketOf_resetTallies, Bucket.fileOrFresh_reset, counts_resetTallies,
    FileState.noteTimelineAdd_reset]
  dsimp only
  rw [Bucket.set_reset, setBucketOf_reset]
  rfl

theorem noteTimelineRemove_reset (file : String) (n : Nat) :
    x.resetTallies.noteTimelineRemove file n = (x.noteTimelineRemove file n).resetTallies := by
  unfold noteTimelineRemove
  dsimp only
  rw [bucketOf_resetTallies, Bucket.fileOrFresh_reset, counts_resetTallies,
    FileState.noteTimelineRemove_reset]
  dsimp only
  rw [Bucket.set_reset, setBucketOf_reset]
  rfl

theorem moveTimelineCount_reset (file : String) (move : Nat → Nat) :
    x.resetTallies.moveTimelineCount file move = (x.moveTimelineCount file move).resetTallies := by
  unfold moveTimelineCount
  rw [file?_resetTallies]
  cases x.file? file with
  | none => rfl
  | some f => exact x.setFile_reset { f with onTimeline := move f.onTimeline }

theorem mapBuckets_reset {g : Bucket → Bucket} (same : ∀ b, g b.reset = (g b).reset) :
    x.resetTallies.mapBuckets g = (x.mapBuckets g).resetTallies := by
  have bucket : ∀ a : Nat × Bucket, (a.1, g a.2.reset) = (a.1, (g a.2).reset) := fun a =>
    congrArg (Prod.mk a.1) (same a.2)
  unfold resetTallies mapFiles mapBuckets
  simp only [List.map_map]
  exact congrArg (fun buckets => { x with buckets := buckets })
    (List.map_congr_left fun a _ => bucket a)

theorem drain_reset : x.resetTallies.drain = (x.drain.1, x.drain.2.resetTallies) := by
  unfold drain
  rw [mapBuckets_reset x fun b => congrArg Prod.snd b.drain_reset]
  have same (a : Nat × Bucket) : a.2.reset.drain.1 = a.2.drain.1 := by rw [Bucket.drain_reset]
  refine congrArg (·, _) ?_
  unfold resetTallies mapFiles mapBuckets
  rw [List.flatMap_map]
  exact List.flatMap_congr fun a _ => same a

theorem activeFiles_resetTallies :
    x.resetTallies.activeFiles = x.activeFiles.map FileState.resetTallies := by
  unfold activeFiles resetTallies mapFiles mapBuckets
  rw [List.filter_map, List.flatMap_map, List.map_flatMap]
  rfl

theorem nextActive?_resetTallies (first step : Nat) :
    x.resetTallies.nextActive? first step = x.nextActive? first step := by
  unfold nextActive? resetTallies mapFiles mapBuckets
  dsimp only
  rw [List.filter_map, List.map_map]
  rfl

theorem lanesOf_reset (files : List FileState) :
    lanesOf (files.map FileState.resetTallies) =
      (lanesOf files).map fun lane => (lane.1.resetTallies, lane.2) := by
  unfold lanesOf
  rw [List.flatMap_map, List.map_flatMap]
  rfl

theorem foldl_lanesOf {β : Type} {f : β → FileState × Direction → β}
    (each : ∀ y lane, f y (lane.1.resetTallies, lane.2) = f y lane) {b b' : Bucket}
    (same : b.reset = b'.reset) (y : β) :
    (lanesOf b.files).foldl f y = (lanesOf b'.files).foldl f y := by
  have emptied (b : Bucket) : (lanesOf b.reset.files).foldl f y = (lanesOf b.files).foldl f y := by
    unfold Bucket.reset
    dsimp only
    rw [lanesOf_reset, List.foldl_map]
    simp only [each]
  rw [← emptied b, same, emptied b']

end Index

namespace Shortest

theorem offer?_reset (f : FileState) (d : Direction) :
    offer? (f.resetTallies, d) = offer? (f, d) := by
  unfold offer?
  dsimp only
  rw [FileState.lane_resetTallies]
  rfl

theorem select_reset (x : Index) : select x.resetTallies = select x := by
  unfold select
  rw [Index.activeFiles_resetTallies, Index.lanesOf_reset, List.filterMap_map]
  exact congrArg (fun offer => firstLeast Choice.score ((lanesOf x.activeFiles).filterMap offer))
    (funext fun lane => offer?_reset lane.1 lane.2)

end Shortest

namespace Burst

variable (x : Index) (quantumBytes now : Nat)

theorem scanFile_reset (f : FileState) :
    scanFile now f.resetTallies = (scanFile now f).resetTallies := by
  unfold scanFile
  rw [show isScanned now f.resetTallies = isScanned now f from rfl]
  split <;> rfl

theorem scanIndex_reset : scanIndex now x.resetTallies = (scanIndex now x).resetTallies := by
  refine x.mapBuckets_reset fun b => ?_
  rw [show b.reset.pending = b.pending from rfl]
  split
  · rfl
  · unfold Bucket.reset
    simp only [List.map_map]
    exact congrArg (fun files => Bucket.mk files b.pending)
      (List.map_congr_left fun f _ => scanFile_reset now f)

theorem offer?_reset (f : FileState) (d : Direction) :
    offer? quantumBytes (f.resetTallies, d) = offer? quantumBytes (f, d) := by
  unfold offer?
  dsimp only
  rw [FileState.lane_resetTallies]
  rfl

theorem select_reset :
    select quantumBytes now x.resetTallies =
      ((select quantumBytes now x).1, (select quantumBytes now x).2.1,
        (select quantumBytes now x).2.2.resetTallies) := by
  have files := x.activeFiles_resetTallies
  have scan : scanFile now ∘ FileState.resetTallies = FileState.resetTallies ∘ scanFile now :=
    funext (scanFile_reset now)
  have offer : offer? quantumBytes ∘ (fun lane => (lane.1.resetTallies, lane.2)) =
      offer? quantumBytes := funext fun lane => offer?_reset quantumBytes lane.1 lane.2
  unfold select
  rw [files, scanIndex_reset]
  simp only [List.filter_map, List.map_map, List.filterMap_map, scan]
  rw [← List.map_map, Index.lanesOf_reset, List.filterMap_map, offer]
  rfl

end Burst

namespace Core

/-- The cores differ only in what a reset clears. -/
def Alike (c c' : Core) : Prop := c.resetStatistics = c'.resetStatistics

variable {c c' c'' : Core}

section

variable (c : Core)

theorem setup_resetStatistics : c.resetStatistics.setup = c.setup := rfl

theorem index_resetStatistics : c.resetStatistics.index = c.index.resetTallies := rfl

theorem timeline_resetStatistics : c.resetStatistics.timeline = c.timeline := rfl

theorem active_resetStatistics : c.resetStatistics.active = c.active := rfl

end

@[simp] theorem resetStatistics_resetStatistics (c : Core) :
    c.resetStatistics.resetStatistics = c.resetStatistics := by
  unfold resetStatistics
  dsimp only
  rw [Index.resetTallies_resetTallies]

namespace Alike

theorem refl (c : Core) : c.Alike c := rfl

theorem symm (h : c.Alike c') : c'.Alike c := Eq.symm h

theorem trans (h : c.Alike c') (h' : c'.Alike c'') : c.Alike c'' := Eq.trans h h'

theorem reset (c : Core) : c.Alike c.resetStatistics := c.resetStatistics_resetStatistics.symm

/-- What comes out the same after a reset comes out the same for cores that are alike. -/
theorem same {β : Type} {q : Core → β} (reset : ∀ c, q c.resetStatistics = q c)
    (h : c.Alike c') : q c = q c' := by
  rw [← reset c, ← reset c', h]

theorem both {β : Type} {q : Core → Core × β}
    (reset : ∀ c, (q c.resetStatistics).1.Alike (q c).1 ∧ (q c.resetStatistics).2 = (q c).2)
    (h : c.Alike c') : (q c).1.Alike (q c').1 ∧ (q c).2 = (q c').2 := by
  obtain ⟨left, answer⟩ := reset c
  obtain ⟨right, answer'⟩ := reset c'
  rw [h] at left answer
  exact ⟨left.symm.trans right, answer.symm.trans answer'⟩

theorem split {β : Type} {x x' : Core × β} (h : x.1.Alike x'.1 ∧ x.2 = x'.2) :
    ∃ c c' b, x = (c, b) ∧ x' = (c', b) ∧ c.Alike c' := by
  obtain ⟨c, b⟩ := x
  obtain ⟨c', b'⟩ := x'
  obtain ⟨alike, rfl⟩ := h
  exact ⟨c, c', b, rfl, rfl, alike⟩

theorem split_snd {β : Type} {x x' : β × Core} (h : x.1 = x'.1 ∧ x.2.Alike x'.2) :
    ∃ b c c', x = (b, c) ∧ x' = (b, c') ∧ c.Alike c' := by
  obtain ⟨b, c⟩ := x
  obtain ⟨b', c'⟩ := x'
  obtain ⟨rfl, alike⟩ := h
  exact ⟨b, c, c', rfl, rfl, alike⟩

theorem setIndex (h : c.Alike c') {x y : Index} (same : x.resetTallies = y.resetTallies) :
    Alike { c with index := x } { c' with index := y } := by
  have rest := congrArg (fun c : Core => { c with index := x.resetTallies }) h
  unfold Alike resetStatistics
  dsimp only
  rw [← same]
  exact rest

end Alike

variable (c : Core) (now : Nat)

theorem enqueue_reset (r : Request) :
    c.resetStatistics.enqueue now r =
      ((c.enqueue now r).1.resetStatistics, (c.enqueue now r).2) := by
  unfold enqueue
  rw [active_resetStatistics]
  split
  · have insert := c.index.insert_reset (.single r) (c.setup.limit c.active) now
    rw [index_resetStatistics,
      setup_resetStatistics]
    simp only [insert]
    rfl
  · have add := c.index.noteTimelineAdd_reset r.file 1 now
    rw [index_resetStatistics]
    simp only [add]
    rfl

theorem submit_reset (s : Submission) :
    (c.resetStatistics.submit now s).1.Alike (c.submit now s).1 ∧
      (c.resetStatistics.submit now s).2 = (c.submit now s).2 := by
  have numbered : enqueue { c.resetStatistics with nextSeq := c.resetStatistics.nextSeq + 1 } now
      (c.resetStatistics.stamp now s) = _ :=
    enqueue_reset { c with nextSeq := c.nextSeq + 1 } now (c.stamp now s)
  unfold submit
  by_cases stopping : c.stopping
  · rw [if_pos stopping, if_pos (show c.resetStatistics.stopping from stopping)]
    exact ⟨(Alike.reset c).symm, rfl⟩
  · rw [if_neg stopping, if_neg (show ¬ c.resetStatistics.stopping from stopping)]
    dsimp only
    by_cases passing : c.active = .passThrough
    · rw [if_pos passing, if_pos (show c.resetStatistics.active = .passThrough from passing)]
      exact ⟨(Alike.reset { c with nextSeq := c.nextSeq + 1 }).symm, rfl⟩
    · rw [if_neg passing, if_neg (show ¬ c.resetStatistics.active = .passThrough from passing)]
      rw [numbered]
      generalize enqueue { c with nextSeq := c.nextSeq + 1 } now (c.stamp now s) = q
      exact ⟨(Alike.reset (signalWork q.1)).symm, rfl⟩

theorem noteGrantRelease_reset (a : Address) :
    c.resetStatistics.noteGrantRelease now a = (c.noteGrantRelease now a).resetStatistics := by
  have file := c.index.file?_resetTallies a.file
  unfold noteGrantRelease
  rw [Core.index_resetStatistics, file]
  cases c.index.file? a.file with
  | none => rfl
  | some f =>
    dsimp only [Option.map_some]
    rw [f.modifyLane_reset a.direction (h := fun l => { l with grant := l.grant.noteRelease now })
      rfl, Index.setFile_reset]
    rfl

theorem complete_reset (a : Address) :
    (c.resetStatistics.complete now a).1.Alike (c.complete now a).1 ∧
      (c.resetStatistics.complete now a).2 = (c.complete now a).2 := by
  have release := c.index.release_reset a
  unfold complete
  rw [index_resetStatistics, release]
  cases c.index.release a with
  | error fault =>
    dsimp only [Except.map]
    rw [active_resetStatistics]
    split
    · exact ⟨(Alike.reset c).symm, rfl⟩
    · exact ⟨(Alike.reset c).symm, rfl⟩
  | ok found =>
    obtain ⟨h, x⟩ := found
    have settled : (if h.inQuantum then
        noteGrantRelease { c.resetStatistics with index := x.resetTallies } now a
        else { c.resetStatistics with index := x.resetTallies }) =
        (if h.inQuantum then noteGrantRelease { c with index := x } now a
          else { c with index := x }).resetStatistics := by
      split
      · exact noteGrantRelease_reset { c with index := x } now a
      · rfl
    dsimp only [Except.map]
    rw [settled]
    generalize (if h.inQuantum then noteGrantRelease { c with index := x } now a
      else { c with index := x }) = q
    refine ⟨?_, rfl⟩
    split
    · exact (Alike.reset (q.noteRelease a.length).noteAcknowledged).symm
    · exact (Alike.reset (q.noteRelease a.length)).symm

theorem dequeue_reset (a : Address) :
    c.resetStatistics.dequeue a = (c.dequeue a).map fun (r, c) => (r, c.resetStatistics) := by
  unfold dequeue
  rw [index_resetStatistics, Index.withdraw_reset,
    Index.file?_resetTallies, Index.noteTimelineRemove_reset]
  by_cases bucketed : c.active.profile.bucketed
  · rw [if_pos bucketed, if_pos (show c.resetStatistics.active.profile.bucketed from bucketed)]
    cases c.index.withdraw a <;> rfl
  · rw [if_neg bucketed, if_neg (show ¬ c.resetStatistics.active.profile.bucketed from bucketed),
      timeline_resetStatistics]
    cases c.timeline.withdraw a with
    | none => rfl
    | some found => cases c.index.file? a.file <;> rfl

theorem cancel_reset (a : Address) :
    (c.resetStatistics.cancel a).1.Alike (c.cancel a).1 ∧
      (c.resetStatistics.cancel a).2 = (c.cancel a).2 := by
  unfold cancel
  rw [dequeue_reset]
  cases c.dequeue a with
  | ok found => exact ⟨(Alike.reset { found.2 with ledger := .zero }).symm, rfl⟩
  | error fault => exact ⟨(Alike.reset c).symm, rfl⟩

theorem foldl_reset {α : Type} {f : Core → α → Core}
    (each : ∀ c a, f c.resetStatistics a = (f c a).resetStatistics) (as : List α) (c : Core) :
    as.foldl f c.resetStatistics = (as.foldl f c).resetStatistics := by
  induction as generalizing c with
  | nil => rfl
  | cons a rest ih => rw [List.foldl_cons, each, ih, List.foldl_cons]

theorem shelve_reset (e : Entry) : c.resetStatistics.shelve e = (c.shelve e).resetStatistics := by
  unfold shelve
  rw [index_resetStatistics, Index.moveTimelineCount_reset]
  rfl

theorem adopt_reset (limit : Nat) (e : Entry) :
    adopt limit c.resetStatistics e = (adopt limit c e).resetStatistics := by
  unfold adopt
  rw [index_resetStatistics, Index.moveTimelineCount_reset,
    Index.adopt_reset]
  rfl

theorem transfer_reset (k : PolicyKind) :
    c.resetStatistics.transfer k = (c.transfer k).resetStatistics := by
  let configured : Core :=
    { c with timeline := c.timeline.configure (c.setup.order k) (c.setup.limit k) }
  have down : configured.resetStatistics.moveToTimeline =
      configured.moveToTimeline.resetStatistics := by
    unfold moveToTimeline
    rw [show configured.resetStatistics.index = configured.index.resetTallies from rfl,
      Index.drain_reset]
    exact foldl_reset shelve_reset _ { configured with index := configured.index.drain.2 }
  have up : configured.resetStatistics.moveToIndex (c.setup.limit k) =
      (configured.moveToIndex (c.setup.limit k)).resetStatistics :=
    foldl_reset (fun c e => adopt_reset c _ e) _
      { configured with timeline := configured.timeline.drain.2 }
  unfold transfer
  dsimp only
  rw [active_resetStatistics]
  cases c.active.profile.bucketed <;> cases k.profile.bucketed
  · let reorders := (c.setup.order c.active).isPriority || (c.setup.order k).isPriority
    exact (apply_ite resetStatistics (reorders = true)
      { configured with timeline := configured.timeline.reorder } configured).symm
  · exact up
  · exact down
  · rfl

theorem migrate_reset (k : PolicyKind) :
    (c.resetStatistics.migrate k).Alike (c.migrate k) := by
  unfold migrate
  rw [transfer_reset]
  generalize c.transfer k = moved
  exact (Alike.reset (signalWork { moved with active := k, epoch := moved.epoch + 1 })).symm

theorem recordDispatch_reset (file : String) (e : Entry) (k : PolicyKind) (inQuantum : Bool) :
    (c.resetStatistics.recordDispatch now file e k inQuantum).Alike
      (c.recordDispatch now file e k inQuantum) := by
  let synchronous := k.profile.synchronous
  let f := (c.index.bucketOf file).fileOrFresh file
  have recorded : (c.index.resetTallies.setFile
      (f.resetTallies.recordDispatch e now inQuantum synchronous)).resetTallies =
      (c.index.setFile (f.recordDispatch e now inQuantum synchronous)).resetTallies := by
    rw [← Index.setFile_reset, ← Index.setFile_reset, FileState.recordDispatch_reset,
      Index.resetTallies_resetTallies]
  unfold Alike recordDispatch
  dsimp only
  rw [index_resetStatistics, Index.bucketOf_resetTallies,
    Bucket.fileOrFresh_reset]
  unfold resetStatistics
  dsimp only
  rw [recorded]

theorem dispatch?_reset (file : String) (d : Direction) (i : Nat) (k : PolicyKind)
    (inQuantum : Bool) :
    (c.resetStatistics.dispatch? now file d i k inQuantum).map (Prod.map id resetStatistics) =
      (c.dispatch? now file d i k inQuantum).map (Prod.map id resetStatistics) := by
  unfold dispatch?
  rw [index_resetStatistics, Index.detach?_reset]
  cases c.index.detach? file d i with
  | none => simp only [Option.map_none]
  | some found =>
    have recorded := recordDispatch_reset { c with index := found.2 } now file found.1 k inQuantum
    exact congrArg (fun c => some (found.1.requests, c)) recorded

theorem dispatchHead?_reset (k : PolicyKind) :
    (c.resetStatistics.dispatchHead? now k).map (Prod.map id resetStatistics) =
      (c.dispatchHead? now k).map (Prod.map id resetStatistics) := by
  unfold dispatchHead?
  rw [timeline_resetStatistics]
  cases c.timeline.pop? with
  | none => simp only [Option.map_none]
  | some found =>
    obtain ⟨e, t⟩ := found
    have recorded := recordDispatch_reset
      { c with index := c.index.noteTimelineRemove e.file e.count, timeline := t } now e.file e k
      false
    dsimp only [Option.map_some]
    rw [index_resetStatistics, Index.noteTimelineRemove_reset]
    exact congrArg (fun c => some (e.requests, c)) recorded

theorem rel_of_map_eq {α : Type} {o o' : Option (α × Core)}
    (h : o.map (Prod.map id resetStatistics) = o'.map (Prod.map id resetStatistics)) :
    Option.Rel (fun x x' => x.1 = x'.1 ∧ x.2.Alike x'.2) o o' := by
  cases o with
  | none => cases o' with
    | none => exact .none
    | some x' => cases h
  | some x => cases o' with
    | none => cases h
    | some x' => exact .some (Prod.mk.inj (Option.some.inj h))

theorem holdBack_reset (file : String) (d : Direction) (i : Nat) :
    (c.resetStatistics.holdBack file d i now).1.Alike (c.holdBack file d i now).1 ∧
      (c.resetStatistics.holdBack file d i now).2 = (c.holdBack file d i now).2 := by
  unfold holdBack
  rw [index_resetStatistics, Index.file?_resetTallies]
  cases c.index.file? file with
  | none => exact ⟨(Alike.reset c).symm, rfl⟩
  | some f =>
    dsimp only [Option.map_some]
    rw [FileState.holdback?_reset, setup_resetStatistics]
    cases f.holdback? c.setup d i now with
    | none => exact ⟨(Alike.reset c).symm, rfl⟩
    | some held =>
      dsimp only
      rw [FileState.arm_reset, Index.setFile_reset]
      exact ⟨(Alike.reset { c with index := c.index.setFile (f.arm held.1 held.2 now) }).symm, rfl⟩

section

variable {c c' : Core} (h : c.Alike c')
include h

theorem Alike.bucket (i : Nat) :
    (c.index.bucket i).reset = (c'.index.bucket i).reset := by
  have same := congrArg (fun c => c.index.bucket i) h
  rwa [index_resetStatistics, index_resetStatistics, Index.bucket_resetTallies,
    Index.bucket_resetTallies] at same

theorem Alike.file? (file : String) :
    Option.Rel (fun f f' => f.resetTallies = f'.resetTallies) (c.index.file? file)
      (c'.index.file? file) := by
  have same := congrArg (fun c : Core => c.index.file? file) h
  simp only [index_resetStatistics, Index.file?_resetTallies] at same
  cases hf : c.index.file? file <;> cases hf' : c'.index.file? file <;> rw [hf, hf'] at same
  · exact .none
  · cases same
  · cases same
  · exact .some (Option.some.inj same)

theorem Alike.dispatch? (file : String) (d : Direction) (i : Nat) (k : PolicyKind)
    (inQuantum : Bool) :
    Option.Rel (fun x x' => x.1 = x'.1 ∧ x.2.Alike x'.2) (c.dispatch? now file d i k inQuantum)
      (c'.dispatch? now file d i k inQuantum) :=
  rel_of_map_eq (Alike.same
    (q := fun c => (c.dispatch? now file d i k inQuantum).map (Prod.map id resetStatistics))
    (fun c => c.dispatch?_reset now file d i k inQuantum) h)

theorem Alike.dispatchHead? (k : PolicyKind) :
    Option.Rel (fun x x' => x.1 = x'.1 ∧ x.2.Alike x'.2) (c.dispatchHead? now k)
      (c'.dispatchHead? now k) :=
  rel_of_map_eq (Alike.same
    (q := fun c => (c.dispatchHead? now k).map (Prod.map id resetStatistics))
    (fun c => c.dispatchHead?_reset now k) h)

theorem Alike.holdBack (file : String) (d : Direction) (i : Nat) :
    (c.holdBack file d i now).1.Alike (c'.holdBack file d i now).1 ∧
      (c.holdBack file d i now).2 = (c'.holdBack file d i now).2 :=
  Alike.both (q := fun c => c.holdBack file d i now) (fun c => c.holdBack_reset now file d i) h

end

end Core

theorem Feedback.promoteLane_reset (quantum now : Nat) (f : FileState) (d : Direction) (c : Core) :
    promoteLane quantum now f.resetTallies d c.resetStatistics =
      ((promoteLane quantum now f d c).1.resetStatistics, (promoteLane quantum now f d c).2) := by
  unfold promoteLane
  dsimp only
  rw [FileState.expire_reset, FileState.lane_resetTallies,
    show (f.lane d).reset.entries = (f.lane d).entries from rfl,
    Core.index_resetStatistics]
  rw [(f.expire now).modifyLane_reset d (h := fun l =>
    { l with entries := (f.lane d).entries.map Entry.promote }) rfl, Index.setFile_reset]
  rfl

namespace Burst

open IoScheduling.Core (Alike)

variable (q : QuantumBounds) (k : Candidate) (now dispatched consumed : Nat)

theorem modifyLane_reset {g h : Lane → Lane} (same : ∀ l, g l.reset = (h l).reset) (c : Core) :
    (modifyLane c.resetStatistics k g).Alike (modifyLane c k h) := by
  have file := c.index.file?_resetTallies k.file
  unfold modifyLane
  rw [Core.index_resetStatistics, file]
  cases c.index.file? k.file with
  | none => exact (Alike.reset c).symm
  | some f =>
    dsimp only [Option.map_some]
    rw [f.modifyLane_reset k.direction (same _), Index.setFile_reset]
    exact (Alike.reset { c with index := c.index.setFile (f.modifyLane k.direction h) }).symm

theorem modifyLane_alike {g : Lane → Lane} (plain : ∀ l, g l.reset = (g l).reset)
    {c c' : Core} (h : c.Alike c') : (modifyLane c k g).Alike (modifyLane c' k g) :=
  Alike.same (q := fun c => (modifyLane c k g).resetStatistics) (modifyLane_reset k plain) h

theorem firstTurn_reset (c : Core) :
    (firstTurn q k now c.resetStatistics).1 = (firstTurn q k now c).1 ∧
      (firstTurn q k now c.resetStatistics).2.Alike (firstTurn q k now c).2 := by
  obtain ⟨c₁, c₂, wait, held, held', alike⟩ :=
    Alike.split (c.holdBack_reset now k.file k.direction 0)
  unfold firstTurn
  rw [held, held']
  cases wait with
  | some wait => exact ⟨rfl, alike⟩
  | none => exact ⟨rfl, modifyLane_alike (g := openGrant q now) k (fun _ => rfl) alike⟩

theorem laterTurn_reset (l : Lane) (c : Core) :
    (laterTurn q k now consumed l.reset c.resetStatistics).1 = (laterTurn q k now consumed l c).1 ∧
      (laterTurn q k now consumed l.reset c.resetStatistics).2.Alike
        (laterTurn q k now consumed l c).2 := by
  have promoted : (modifyLane c.resetStatistics k fun _ => promoteHead l.reset).Alike
      (modifyLane c k fun _ => promoteHead l) :=
    modifyLane_reset (h := fun _ => promoteHead l) k (fun _ => rfl) c
  unfold laterTurn
  dsimp only
  generalize modifyLane c.resetStatistics k (fun _ => promoteHead l.reset) = c₁ at promoted
  generalize modifyLane c k (fun _ => promoteHead l) = c₂ at promoted
  rw [show l.reset.grant = l.grant from rfl,
    show (promoteHead l.reset).entries = (promoteHead l).entries from rfl]
  split
  · exact ⟨rfl, modifyLane_alike (g := closeGrant q) k (fun _ => rfl) promoted⟩
  · obtain ⟨c₃, c₄, wait, held, held', alike⟩ :=
      Alike.split (promoted.holdBack now k.file k.direction 0)
    rw [held, held']
    cases wait with
    | some wait => exact ⟨rfl, modifyLane_alike (g := closeGrant q) k (fun _ => rfl) alike⟩
    | none => exact ⟨rfl, alike⟩

theorem turn_reset (c : Core) :
    (turn q k now dispatched consumed c.resetStatistics).1 =
        (turn q k now dispatched consumed c).1 ∧
      (turn q k now dispatched consumed c.resetStatistics).2.Alike
        (turn q k now dispatched consumed c).2 := by
  unfold turn
  rw [Core.index_resetStatistics, Index.file?_resetTallies]
  cases c.index.file? k.file with
  | none => exact ⟨rfl, (Alike.reset c).symm⟩
  | some f =>
    dsimp only [Option.map_some]
    rw [FileState.lane_resetTallies]
    by_cases drained : (f.lane k.direction).entries.isEmpty
    · rw [if_pos drained, if_pos (show (f.lane k.direction).reset.entries.isEmpty from drained)]
      refine ⟨rfl, ?_⟩
      dsimp only
      split
      · exact (Alike.reset c).symm
      · exact modifyLane_reset (h := closeGrant q) k (fun _ => rfl) c
    · rw [if_neg drained, if_neg (show ¬ (f.lane k.direction).reset.entries.isEmpty from drained)]
      split
      · exact firstTurn_reset q k now c
      · exact laterTurn_reset q k now consumed (f.lane k.direction) c

theorem turn_alike {c c' : Core} (h : c.Alike c') :
    (turn q k now dispatched consumed c).1 = (turn q k now dispatched consumed c').1 ∧
      (turn q k now dispatched consumed c).2.Alike (turn q k now dispatched consumed c').2 :=
  (Alike.both (q := fun c => (turn q k now dispatched consumed c).swap)
    (fun c => (turn_reset q k now dispatched consumed c).symm) h).symm

end Burst

end IoScheduling
