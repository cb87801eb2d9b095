import IoScheduling.Fault
import IoScheduling.Pending.FileState
import IoScheduling.Pending.Keyed

/-!
# The bucketed index

Files are spread over buckets by the hash of their names; within a bucket they stand in the order
of their names. A bucket counts the requests pending in its lanes, so that a scan can pass over an
idle one. Buckets have numbers, and only those that hold files are kept, so an index costs no more
than the files in it. The index carries the counts of pending requests, which also cover the
timeline.
-/
namespace IoScheduling

structure EntryView where
  file : String
  direction : Direction
  offset : Nat
  length : Nat
  count : Nat
  deriving DecidableEq, Repr

def Entry.view (e : Entry) : EntryView := ⟨e.file, e.direction, e.offset, e.length, e.count⟩

def EntryView.le (a b : EntryView) : Bool :=
  let key (v : EntryView) : List Nat :=
    [if v.direction = .read then 0 else 1, v.offset, v.length, v.count]
  if a.file = b.file then !(key b).lex (key a) else a.file < b.file

structure Bucket where
  files : List FileState
  pending : Nat
  deriving DecidableEq, Repr

namespace Bucket

def empty : Bucket := ⟨[], 0⟩

def file? (b : Bucket) (name : String) : Option FileState := b.files.find? (·.file == name)

def fileOrFresh (b : Bucket) (name : String) : FileState :=
  (b.file? name).getD (FileState.fresh name)

def set (b : Bucket) (f : FileState) : Bucket :=
  { b with files := Keyed.put FileState.file b.files f }

def insert (b : Bucket) (e : Entry) (limit now : Nat) (c : PendingCounts) :
    Bucket × PendingCounts × Placement :=
  let (f, c, placement) := (b.fileOrFresh e.file).insert e limit now c
  ({ b.set f with pending := b.pending + e.count }, c, placement)

def detach? (b : Bucket) (file : String) (d : Direction) (i : Nat) (c : PendingCounts) :
    Option (Entry × Bucket × PendingCounts) := do
  let f ← b.file? file
  let (e, f, c) ← f.detach? d i c
  return (e, { b.set f with pending := b.pending - e.count }, c)

def withdraw? (b : Bucket) (a : Address) (c : PendingCounts) :
    Option (Request × Bucket × PendingCounts) := do
  let f ← b.file? a.file
  let (r, f, c) ← f.withdraw? a c
  return (r, { b.set f with pending := b.pending - 1 }, c)

def release? (b : Bucket) (a : Address) : Option (HandedOut × Bucket) := do
  let f ← b.file? a.file
  let (h, f) ← f.release? a
  return (h, b.set f)

def drain (b : Bucket) : List Entry × Bucket :=
  (b.files.flatMap fun f => f.drain.1, ⟨b.files.map fun f => f.drain.2, 0⟩)

def adopt (b : Bucket) (e : Entry) (limit : Nat) : Bucket × Placement :=
  let (f, placement) := (b.fileOrFresh e.file).adopt e limit
  ({ b.set f with pending := b.pending + e.count }, placement)

end Bucket

structure Index where
  size : Nat
  buckets : List (Nat × Bucket)
  counts : PendingCounts
  hash : String → Nat

namespace Index

def withHash (hash : String → Nat) (size : Nat) : Index := ⟨max size 1, [], .zero, hash⟩

def slotOf (x : Index) (file : String) : Nat := x.hash file % x.size

def bucket (x : Index) (i : Nat) : Bucket :=
  ((x.buckets.find? (·.1 == i)).map Prod.snd).getD .empty

def bucketOf (x : Index) (file : String) : Bucket := x.bucket (x.slotOf file)

def setBucketOf (x : Index) (file : String) (b : Bucket) : Index :=
  { x with buckets := Keyed.put Prod.fst x.buckets (x.slotOf file, b) }

def mapBuckets (x : Index) (g : Bucket → Bucket) : Index :=
  { x with buckets := x.buckets.map fun (i, b) => (i, g b) }

def file? (x : Index) (file : String) : Option FileState := (x.bucketOf file).file? file

def setFile (x : Index) (f : FileState) : Index :=
  x.setBucketOf f.file ((x.bucketOf f.file).set f)

def setCounts (x : Index) (c : PendingCounts) : Index := { x with counts := c }

def files (x : Index) : List FileState := x.buckets.flatMap fun (_, b) => b.files

def insert (x : Index) (e : Entry) (limit now : Nat) : Index × Placement :=
  let (b, c, placement) := (x.bucketOf e.file).insert e limit now x.counts
  ((x.setBucketOf e.file b).setCounts c, placement)

def detach? (x : Index) (file : String) (d : Direction) (i : Nat) : Option (Entry × Index) :=
  ((x.bucketOf file).detach? file d i x.counts).map fun (e, b, c) =>
    (e, (x.setBucketOf file b).setCounts c)

def withdraw (x : Index) (a : Address) : Except Fault (Request × Index) :=
  match (x.bucketOf a.file).withdraw? a x.counts with
  | some (r, b, c) => .ok (r, (x.setBucketOf a.file b).setCounts c)
  | none => .error (.notFound a)

def release (x : Index) (a : Address) : Except Fault (HandedOut × Index) :=
  match (x.bucketOf a.file).release? a with
  | some (h, b) => .ok (h, x.setBucketOf a.file b)
  | none => .error (.notFound a)

def noteTimelineAdd (x : Index) (file : String) (n now : Nat) : Index :=
  let b := x.bucketOf file
  let (f, c) := (b.fileOrFresh file).noteTimelineAdd n now x.counts
  (x.setBucketOf file (b.set f)).setCounts c

def noteTimelineRemove (x : Index) (file : String) (n : Nat) : Index :=
  let b := x.bucketOf file
  let (f, c) := (b.fileOrFresh file).noteTimelineRemove n x.counts
  (x.setBucketOf file (b.set f)).setCounts c

def drain (x : Index) : List Entry × Index :=
  (x.buckets.flatMap fun (_, b) => b.drain.1, x.mapBuckets fun b => b.drain.2)

def adopt (x : Index) (e : Entry) (limit : Nat) : Index × Placement :=
  let (b, placement) := (x.bucketOf e.file).adopt e limit
  (x.setBucketOf e.file b, placement)

def pendingEntries (x : Index) : Nat :=
  sumOf (fun f => f.reads.entries.length + f.writes.entries.length) x.files

/-- The pending entries in the order of `EntryView.le`. The file is the one in whose lane an entry
waits. -/
def snapshot (x : Index) : List EntryView :=
  (x.files.flatMap fun f => Direction.all.flatMap fun d =>
    (f.lane d).entries.map fun e => ⟨f.file, d, e.offset, e.length, e.count⟩).mergeSort EntryView.le

def fileSnapshots (x : Index) : List FileSnapshot :=
  (x.files.map FileState.snapshot).mergeSort fun a b => decide (a.file ≤ b.file)

def mapFiles (x : Index) (g : FileState → FileState) : Index :=
  x.mapBuckets fun b => { b with files := b.files.map g }

def resetTallies (x : Index) : Index := x.mapFiles FileState.resetTallies

/-- The shortest cooldown of a file with pending requests, and the index without the cooldowns of
such files that have passed. -/
def smallestCooldown (x : Index) (now : Nat) : Option Nat × Index :=
  let waiting := x.files.filter fun f => f.pending ≠ 0
  ((waiting.filterMap (·.cooldown? now)).min?,
    x.mapFiles fun f => if f.pending = 0 then f else f.expire now)

theorem bucket_setBucketOf (x : Index) (file : String) (b : Bucket) (i : Nat) :
    (x.setBucketOf file b).bucket i = if i = x.slotOf file then b else x.bucket i := by
  unfold bucket setBucketOf
  rw [Keyed.find?_put]
  split <;> rfl

@[simp] theorem bucketOf_setBucketOf (x : Index) (file : String) (b : Bucket) :
    (x.setBucketOf file b).bucketOf file = b :=
  (bucket_setBucketOf x file b _).trans (if_pos rfl)

end Index

end IoScheduling
