import IoScheduling.Pending.Request

/-!
# Pending entries

What waits in a queue is an entry: a lone request, or an aggregate of several requests that goes
out as one. An aggregate keeps a head with its byte range, its earliest arrival, its smallest
sequence number and its eligibility factor, so that a scan need not visit the members.
-/
namespace IoScheduling

structure Members where
  first : Request
  rest : List Request
  deriving DecidableEq, Repr

namespace Members

def toList (m : Members) : List Request := m.first :: m.rest

def length (m : Members) : Nat := m.rest.length + 1

def least (f : Request → Nat) (m : Members) : Nat :=
  m.rest.foldl (fun best r => min best (f r)) (f m.first)

def greatest (f : Request → Nat) (m : Members) : Nat :=
  m.rest.foldl (fun best r => max best (f r)) (f m.first)

def push (m : Members) (r : Request) : Members := ⟨m.first, m.rest ++ [r]⟩

@[simp] theorem toList_push (m : Members) (r : Request) : (m.push r).toList = m.toList ++ [r] := rfl

@[simp] theorem length_toList (m : Members) : m.toList.length = m.length := rfl

end Members

structure Head where
  offset : Nat
  length : Nat
  earliestArrival : Nat
  firstSeq : Nat
  factor : Nat
  deriving DecidableEq, Repr

/-- The head that describes `members`: it spans from the smallest offset to the largest end. -/
def Head.of (members : Members) (factor : Nat) : Head where
  offset := members.least Request.offset
  length := members.greatest Request.stop - members.least Request.offset
  earliestArrival := members.least Request.arrival
  firstSeq := members.least Request.seq
  factor := factor

inductive Entry where
  | single (request : Request)
  | aggregate (head : Head) (members : Members)
  deriving DecidableEq, Repr

def maxFactor : Nat := 0x10000000000

namespace Entry

def offset : Entry → Nat
  | single r => r.offset
  | aggregate h _ => h.offset

def length : Entry → Nat
  | single r => r.length
  | aggregate h _ => h.length

def stop (e : Entry) : Nat := satAdd e.offset e.length

def requests : Entry → List Request
  | single r => [r]
  | aggregate _ m => m.toList

def count : Entry → Nat
  | single _ => 1
  | aggregate _ m => m.length

def earliestArrival : Entry → Nat
  | single r => r.arrival
  | aggregate h _ => h.earliestArrival

def firstSeq : Entry → Nat
  | single r => r.seq
  | aggregate h _ => h.firstSeq

def factor : Entry → Nat
  | single r => r.factor
  | aggregate h _ => h.factor

def withFactor (n : Nat) : Entry → Entry
  | single r => single { r with factor := n }
  | aggregate h m => aggregate { h with factor := n } m

/-- The factor after one more scan has passed the entry: 0 becomes 1, then it doubles. -/
def nextFactor (n : Nat) : Nat := if n = 0 then 1 else min (satMul n 2) maxFactor

def promote (e : Entry) : Entry := e.withFactor (nextFactor e.factor)

/-- Whether the factor has grown enough for the entry's length under `quantum` bytes a step. -/
def eligible (e : Entry) (quantum : Nat) : Bool := e.length ≤ satMul e.factor quantum

def first : Entry → Request
  | single r => r
  | aggregate _ m => m.first

def file (e : Entry) : String := e.first.file

def direction (e : Entry) : Direction := e.first.direction

def stream (e : Entry) : Nat := e.first.stream

def isAggregate : Entry → Bool
  | single _ => false
  | aggregate _ _ => true

def bytes (e : Entry) : Nat := bytesOf e.requests

def touches (e : Entry) (offset stop : Nat) : Bool := e.offset ≤ stop && offset ≤ e.stop

def position (e : Entry) (a : Address) : Option Nat := e.requests.findIdx? (·.matchesRange a)

def spansRequests (e : Entry) : Bool :=
  (e.requests.map Request.offset).min? == some e.offset &&
    (e.requests.map Request.stop).max? == some e.stop

@[simp] theorem length_requests (e : Entry) : e.requests.length = e.count := by
  cases e <;> rfl

@[simp] theorem factor_withFactor (e : Entry) (n : Nat) : (e.withFactor n).factor = n := by
  cases e <;> rfl

theorem withFactor_factor (e : Entry) : e.withFactor e.factor = e := by
  cases e <;> rfl

@[simp] theorem count_withFactor (e : Entry) (n : Nat) : (e.withFactor n).count = e.count := by
  cases e <;> rfl

@[simp] theorem offset_withFactor (e : Entry) (n : Nat) : (e.withFactor n).offset = e.offset := by
  cases e <;> rfl

@[simp] theorem length_withFactor (e : Entry) (n : Nat) : (e.withFactor n).length = e.length := by
  cases e <;> rfl

theorem factor_promote (e : Entry) : e.promote.factor = nextFactor e.factor := by
  simp [promote]

theorem nextFactor_le (n : Nat) : nextFactor n ≤ maxFactor := by
  unfold nextFactor
  split
  · decide
  · exact Nat.min_le_right _ _

end Entry

end IoScheduling
