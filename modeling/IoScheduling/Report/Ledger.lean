import IoScheduling.Number.Word
import IoScheduling.Policy.Kind

/-!
# The ledger

Counters of everything that has happened since the last reset. The ledger counts exactly; a reading
of it shows every counter as a 64-bit register would.
-/
namespace IoScheduling

structure Ledger where
  received : Nat
  dispatchedRequests : Nat
  dispatchedEntries : Nat
  released : Nat
  releasedBytes : Nat
  cancelled : Nat
  aggregations : Nat
  maxAggregation : Nat
  migrations : Nat
  waits : Nat
  notFound : Nat
  perPolicy : PerPolicy Nat

namespace Ledger

def zero : Ledger := ⟨0, 0, 0, 0, 0, 0, 0, 0, 0, 0, 0, .replicate 0⟩

def recordReceived (l : Ledger) (merged : Bool) : Ledger :=
  { l with
    received := l.received + 1
    aggregations := if merged then l.aggregations + 1 else l.aggregations }

def recordDispatch (l : Ledger) (k : PolicyKind) (count : Nat) : Ledger :=
  { l with
    dispatchedEntries := l.dispatchedEntries + 1
    dispatchedRequests := l.dispatchedRequests + count
    maxAggregation := max l.maxAggregation count
    perPolicy := l.perPolicy.modify k (· + count) }

def recordRelease (l : Ledger) (bytes : Nat) : Ledger :=
  { l with released := l.released + 1, releasedBytes := l.releasedBytes + bytes }

def recordCancelled (l : Ledger) : Ledger := { l with cancelled := l.cancelled + 1 }

def recordMigration (l : Ledger) : Ledger := { l with migrations := l.migrations + 1 }

def recordWait (l : Ledger) : Ledger := { l with waits := l.waits + 1 }

def recordNotFound (l : Ledger) : Ledger := { l with notFound := l.notFound + 1 }

end Ledger

structure LedgerSnapshot where
  received : Nat
  dispatchedRequests : Nat
  dispatchedEntries : Nat
  released : Nat
  releasedBytes : Nat
  cancelled : Nat
  aggregations : Nat
  maxAggregation : Nat
  migrations : Nat
  /-- Lost races between callers; a single caller never loses one. -/
  lockRetries : Nat
  waits : Nat
  notFound : Nat
  perPolicy : List (PolicyKind × Nat)
  deriving DecidableEq, Repr

def LedgerSnapshot.zero : LedgerSnapshot := ⟨0, 0, 0, 0, 0, 0, 0, 0, 0, 0, 0, 0, []⟩

def Ledger.snapshot (l : Ledger) : LedgerSnapshot where
  received := wrapWord l.received
  dispatchedRequests := wrapWord l.dispatchedRequests
  dispatchedEntries := wrapWord l.dispatchedEntries
  released := wrapWord l.released
  releasedBytes := wrapWord l.releasedBytes
  cancelled := wrapWord l.cancelled
  aggregations := wrapWord l.aggregations
  maxAggregation := l.maxAggregation
  migrations := wrapWord l.migrations
  lockRetries := 0
  waits := wrapWord l.waits
  notFound := wrapWord l.notFound
  perPolicy :=
    (PolicyKind.all.map fun k => (k, wrapWord (l.perPolicy.get k))).filter fun (_, n) => n ≠ 0

def LedgerSnapshot.averageAggregation (s : LedgerSnapshot) : Float :=
  if s.dispatchedEntries = 0 then 0.0
  else wordToFloat s.dispatchedRequests / wordToFloat s.dispatchedEntries

end IoScheduling
