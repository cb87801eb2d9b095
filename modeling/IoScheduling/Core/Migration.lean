import IoScheduling.Core.State

/-!
# Migration

When the policy changes, the pending entries move to the index on which the new one works. Entries
stay whole, even if the new policy would not have built them so large.
-/
namespace IoScheduling

def Index.moveTimelineCount (x : Index) (file : String) (move : Nat → Nat) : Index :=
  match x.file? file with
  | some f => x.setFile { f with onTimeline := move f.onTimeline }
  | none => x

namespace Core

def shelve (c : Core) (e : Entry) : Core :=
  { c with
    index := c.index.moveTimelineCount e.file (· + e.count)
    timeline := (c.timeline.add e).1 }

def adopt (limit : Nat) (c : Core) (e : Entry) : Core :=
  { c with index := ((c.index.moveTimelineCount e.file (· - e.count)).adopt e limit).1 }

def moveToTimeline (c : Core) : Core :=
  let (entries, index) := c.index.drain
  entries.foldl shelve { c with index := index }

def moveToIndex (c : Core) (limit : Nat) : Core :=
  let (entries, timeline) := c.timeline.drain
  entries.foldl (adopt limit) { c with timeline := timeline }

/-- Sets the timeline up for policy `k` and moves the pending entries to the index it works on. -/
def transfer (c : Core) (k : PolicyKind) : Core :=
  let old := c.active
  let timeline := c.timeline.configure (c.setup.order k) (c.setup.limit k)
  let configured := { c with timeline := timeline }
  match old.profile.bucketed, k.profile.bucketed with
  | true, true => configured
  | true, false => configured.moveToTimeline
  | false, true => configured.moveToIndex (c.setup.limit k)
  | false, false =>
    if (c.setup.order old).isPriority || (c.setup.order k).isPriority then
      { configured with timeline := configured.timeline.reorder }
    else configured

def migrate (c : Core) (k : PolicyKind) : Core :=
  let moved := c.transfer k
  { moved with
    active := k
    epoch := moved.epoch + 1
    ledger := moved.ledger.recordMigration }.signalWork

end Core

end IoScheduling
