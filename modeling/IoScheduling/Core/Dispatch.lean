import IoScheduling.Core.State

/-!
# Dispatch

An entry leaves its index, is counted, and is recorded as handed out until its requests are
acknowledged one by one. The requests are handed over afterwards, by whoever runs the core.
-/
namespace IoScheduling

namespace Core

def recordDispatch (c : Core) (now : Nat) (file : String) (e : Entry) (k : PolicyKind)
    (inQuantum : Bool) : Core :=
  let synchronous := k.profile.synchronous
  let f := (c.index.bucketOf file).fileOrFresh file
  { c with
    ledger := c.ledger.recordDispatch k e.count
    outstanding := if synchronous then c.outstanding + e.count else c.outstanding
    index := c.index.setFile (f.recordDispatch e now inQuantum synchronous) }

def dispatch? (c : Core) (now : Nat) (file : String) (d : Direction) (i : Nat) (k : PolicyKind)
    (inQuantum : Bool) : Option (List Request × Core) :=
  (c.index.detach? file d i).map fun (e, index) =>
    (e.requests, { c with index := index }.recordDispatch now file e k inQuantum)

def dispatchHead? (c : Core) (now : Nat) (k : PolicyKind) : Option (List Request × Core) :=
  c.timeline.pop?.map fun (e, timeline) =>
    let index := c.index.noteTimelineRemove e.file e.count
    (e.requests,
      { c with index := index, timeline := timeline }.recordDispatch now e.file e k false)

end Core

end IoScheduling
