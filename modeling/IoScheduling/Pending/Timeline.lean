import IoScheduling.Pending.OffsetQueue
import IoScheduling.Pending.Ring

/-!
# The timeline

Policies whose order crosses files keep all pending entries in one queue. Three orders are served:
arrival, arrival with merging, and time windows in which lower stream ids go first. Each entry
stores the priority under which it was placed. An arrival under time windows looks for its place by
halving; where earlier changes left the entries out of order, the place it finds depends on how the
entries lie in their ring.
-/
namespace IoScheduling

inductive TimelineOrder where
  /-- Strict arrival order, nothing is merged. -/
  | fifo
  /-- Arrival order; an arrival joins any entry of its file and direction that it touches. -/
  | fifoAggregate
  /-- Windows of `window` nanoseconds in order of time, and within a window the stream ids. -/
  | timeWindow (window streams : Nat)
  deriving DecidableEq, Repr

def TimelineOrder.isPriority : TimelineOrder → Bool
  | .timeWindow _ _ => true
  | _ => false

def TimelineOrder.priority (order : TimelineOrder) (e : Entry) : Nat :=
  match order with
  | .timeWindow window streams =>
    satAdd (satMul (e.earliestArrival / max window 1) (max streams 1)) e.stream
  | _ => e.firstSeq

structure Slot where
  entry : Entry
  priority : Nat
  deriving DecidableEq, Repr

structure Timeline where
  store : Ring Slot
  order : TimelineOrder
  limit : Nat
  requests : Nat
  deriving DecidableEq, Repr

namespace Timeline

def empty : Timeline := ⟨.empty, .fifo, 1, 0⟩

def slots (t : Timeline) : List Slot := t.store.items

def entries (t : Timeline) : List Entry := t.slots.map Slot.entry

def configure (t : Timeline) (order : TimelineOrder) (limit : Nat) : Timeline :=
  { t with order := order, limit := max limit 1 }

def slotOf (t : Timeline) (e : Entry) : Slot := ⟨e, t.order.priority e⟩

def partners (limit : Nat) (e node : Entry) : Bool :=
  e.file == node.file && e.direction == node.direction && e.touches node.offset node.stop &&
    e.count + node.count ≤ limit

/-- The first slot, other than the one at `skip`, whose entry may join `node`. -/
def partner? (limit : Nat) (slots : List Slot) (skip : Option Nat) (node : Entry) : Option Nat :=
  slots.zipIdx.findSome? fun (s, i) =>
    if some i ≠ skip ∧ partners limit s.entry node then some i else none

/-- Merges the entry at `i` with its partners, one after another; the merged entry keeps the
earlier place. Each round removes a slot, so there are no more rounds than slots. -/
def bridge (limit : Nat) : Nat → Ring Slot → Nat → Ring Slot × Nat
  | 0, store, i => (store, i)
  | rounds + 1, store, i =>
    match store.items[i]? with
    | none => (store, i)
    | some here =>
      match partner? limit store.items (some i) here.entry with
      | none => (store, i)
      | some j =>
        let keep := min i j
        let gone := max i j
        match store.items[gone]? with
        | none => (store, i)
        | some g =>
          let store := (store.eraseIdx gone).modify keep fun k =>
            { k with entry := k.entry.absorb g.entry }
          bridge limit rounds store keep

def addMerging (t : Timeline) (node : Entry) : Timeline × Placement :=
  match partner? t.limit t.slots none node with
  | none => ({ t with store := t.store.push (t.slotOf node) }, .alone)
  | some i =>
    let grown := t.store.modify i fun s => { s with entry := s.entry.absorb node }
    let (store, i) := bridge t.limit grown.items.length grown i
    let store := store.modify i fun s => t.slotOf s.entry
    ({ t with store := store }, .merged ((store.items[i]?.map (·.entry.count)).getD 0))

def add (t : Timeline) (node : Entry) : Timeline × Placement :=
  let t := { t with requests := t.requests + node.count }
  match t.order with
  | .fifo => ({ t with store := t.store.push (t.slotOf node) }, .alone)
  | .fifoAggregate => t.addMerging node
  | .timeWindow _ _ =>
    let slot := t.slotOf node
    let i := t.store.boundary fun s => s.priority ≤ slot.priority
    ({ t with store := t.store.insertIdx i slot }, .alone)

def peek? (t : Timeline) : Option Entry := t.slots.head?.map Slot.entry

def pop? (t : Timeline) : Option (Entry × Timeline) :=
  t.slots.head?.map fun s =>
    (s.entry, { t with store := t.store.eraseIdx 0, requests := t.requests - s.entry.count })

/-- Sorts all entries by their priorities under the current order; equal ones keep their order. -/
def reorder (t : Timeline) : Timeline :=
  let slots := (t.entries.map t.slotOf).mergeSort fun a b => a.priority ≤ b.priority
  { t with store := .ofList slots }

def locate (t : Timeline) (a : Address) : Option (Nat × Nat) :=
  t.entries.zipIdx.findSome? fun (e, i) =>
    if e.file = a.file then (e.position a).map fun k => (i, k) else none

/-- Withdraws a request; what is left of its entry stays in the entry's place, in offset order. -/
def withdraw (t : Timeline) (a : Address) : Option (Request × Timeline) := do
  let (i, k) ← t.locate a
  let s ← t.slots[i]?
  let (request, runs) ← s.entry.extract k
  return (request, { t with
    store := (t.store.eraseIdx i).insertAll i (runs.map t.slotOf)
    requests := t.requests - 1 })

def drain (t : Timeline) : List Entry × Timeline :=
  (t.entries, { t with store := t.store.clear, requests := 0 })

end Timeline

end IoScheduling
