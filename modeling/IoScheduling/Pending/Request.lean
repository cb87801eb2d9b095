import IoScheduling.Number.Word

/-!
# Requests

A request is one read or write of a byte range of a file, as a caller hands it in. Files are known
by name only. The eligibility factor belongs to a request while it stands alone in its queue.
-/
namespace IoScheduling

inductive Direction where
  | read
  | write
  deriving DecidableEq, Repr, Inhabited

def Direction.all : List Direction := [.read, .write]

structure Address where
  file : String
  direction : Direction
  offset : Nat
  length : Nat
  deriving DecidableEq, Repr

structure Request where
  file : String
  direction : Direction
  offset : Nat
  length : Nat
  arrival : Nat
  seq : Nat
  /-- Opaque to the scheduler, handed back with the request. -/
  token : Nat
  stream : Nat
  factor : Nat
  deriving DecidableEq, Repr

def Request.stop (r : Request) : Nat := satAdd r.offset r.length

def Request.address (r : Request) : Address := ⟨r.file, r.direction, r.offset, r.length⟩

def Request.matchesRange (r : Request) (a : Address) : Bool :=
  r.direction == a.direction && r.offset == a.offset && r.length == a.length

/-- The bytes asked for, as a word; overlaps count as often as they are asked for. -/
def bytesOf (requests : List Request) : Nat := wrapWord (sumOf Request.length requests)

structure Submission where
  file : String
  direction : Direction
  offset : Nat
  length : Nat
  token : Nat
  stream : Nat
  deriving DecidableEq, Repr

end IoScheduling
