import IoScheduling.Pending.Aggregation

/-!
# Offset-ordered queues

The pending entries of one file and direction stand in the order of their offsets. A new entry is
merged with the neighbours it touches, as far as the limit on requests per aggregate allows, and
otherwise stands alone.
-/
namespace IoScheduling

inductive Placement where
  | alone
  /-- It was merged into an entry that now holds `count` requests. -/
  | merged (count : Nat)
  deriving DecidableEq, Repr

def Placement.isMerged : Placement → Bool
  | .alone => false
  | .merged _ => true

inductive Joining where
  | both (before after : Entry)
  | before (e : Entry)
  | after (e : Entry)
  | none
  deriving DecidableEq, Repr

namespace OffsetQueue

def touching (node neighbour : Entry) : Bool := neighbour.touches node.offset node.stop

/-- Decides which one of its neighbours `node` joins, if there is room in it: the one with more
requests, the one in front on a tie. -/
def joinOne (before after : Option Entry) (node : Entry) (limit : Nat) : Joining :=
  let fits (e : Entry) : Bool := e.count + node.count ≤ limit
  match before.filter fits, after.filter fits with
  | some b, some a => if b.count < a.count then .after a else .before b
  | some b, none => .before b
  | none, some a => .after a
  | none, none => .none

/-- Decides what `node` joins between the neighbours `before` and `after`. Bridging both comes
first. If the three do not fit together but each side would, one side is taken. -/
def joining (before after : Option Entry) (node : Entry) (limit : Nat) : Joining :=
  let before := before.filter (touching node)
  let after := after.filter (touching node)
  match before, after with
  | some b, some a =>
    if b.count + a.count + node.count ≤ limit then .both b a
    else joinOne before after node limit
  | _, _ => joinOne before after node limit

def slot (queue : List Entry) (offset : Nat) : Nat :=
  partitionPoint (fun e => e.offset ≤ offset) queue

def insert (queue : List Entry) (node : Entry) (limit : Nat) : List Entry × Placement :=
  let i := slot queue node.offset
  let front := queue.take i
  let back := queue.drop i
  match joining front.getLast? back.head? node limit with
  | .both before after =>
    let grown := (before.absorb after).absorb node
    (front.dropLast ++ grown :: back.tail, .merged grown.count)
  | .before e =>
    let grown := e.absorb node
    (front.dropLast ++ grown :: back, .merged grown.count)
  | .after e =>
    let grown := e.absorb node
    (front ++ grown :: back.tail, .merged grown.count)
  | .none => (front ++ node :: back, .alone)

/-- Puts a run of a split entry back at its own offset. A standalone entry may lie inside the range
of the entry that was split, so the runs need not stay together. -/
def reinsert (queue : List Entry) (run : Entry) : List Entry :=
  queue.insertIdx (slot queue run.offset) run

def locate (queue : List Entry) (a : Address) : Option (Nat × Nat) :=
  (queue.findIdx? fun e => (e.position a).isSome).bind fun i =>
    (queue[i]?.bind (·.position a)).map fun k => (i, k)

def withdraw (queue : List Entry) (a : Address) : Option (Request × List Entry) := do
  let (i, k) ← locate queue a
  let e ← queue[i]?
  let (request, runs) ← e.extract k
  return (request, runs.foldl reinsert (queue.eraseIdx i))

def isSorted : List Entry → Bool
  | a :: b :: rest => a.offset ≤ b.offset && isSorted (b :: rest)
  | _ => true

end OffsetQueue

end IoScheduling
