import IoScheduling.Pending.Entry
import IoScheduling.Pending.Search

/-!
# Merging and splitting entries

`absorb` joins two entries into one aggregate. `extract` takes one request out of an entry and
regroups the others into maximal contiguous runs, since the request that left may have been the
bridge between them. Neither loses nor invents a request.
-/
namespace IoScheduling

def Members.insertAt (m : Members) (i : Nat) (r : Request) : Members :=
  match i with
  | 0 => ⟨r, m.toList⟩
  | i + 1 => ⟨m.first, m.rest.insertIdx i r⟩

def Members.insert (m : Members) (r : Request) : Members :=
  m.insertAt (partitionPoint (fun s => s.offset ≤ r.offset) m.toList) r

def Entry.members : Entry → Members
  | .single r => ⟨r, []⟩
  | .aggregate _ m => m

/-- Joins `other` to `target`; the aggregate keeps the larger of the two factors. -/
def Entry.absorb (target other : Entry) : Entry :=
  let members := other.requests.foldl Members.insert target.members
  .aggregate (Head.of members (max target.factor other.factor)) members

def Entry.ofRun (factor : Nat) (run : Members) : Entry :=
  match run.rest with
  | [] => .single { run.first with factor := factor }
  | _ :: _ => .aggregate (Head.of run factor) run

def regroupFrom (factor : Nat) (run : Members) (reach : Nat) : List Request → List Entry
  | [] => [Entry.ofRun factor run]
  | r :: rest =>
    if reach < r.offset then
      Entry.ofRun factor run :: regroupFrom factor ⟨r, []⟩ r.stop rest
    else
      regroupFrom factor (run.push r) (max reach r.stop) rest

def regroup (factor : Nat) : List Request → List Entry
  | [] => []
  | r :: rest => regroupFrom factor ⟨r, []⟩ r.stop rest

/-- Takes the request at position `i` out. What is left carries on with the entry's factor, and so
does the request if its own is smaller. -/
def Entry.extract (e : Entry) (i : Nat) : Option (Request × List Entry) :=
  e.requests[i]?.map fun r =>
    ({ r with factor := max r.factor e.factor }, regroup e.factor (e.requests.eraseIdx i))

@[simp] theorem Entry.toList_members (e : Entry) : e.members.toList = e.requests := by
  cases e <;> rfl

theorem Members.toList_insertAt (m : Members) (i : Nat) (r : Request) :
    (m.insertAt i r).toList = m.toList.insertIdx i r := by
  cases i <;> rfl

end IoScheduling
