import IoScheduling.Report.Basic
import IoScheduling.Text.Json

/-!
# Writing a report

A report is written as a JSON object, one member a line, in a fixed order.
-/
namespace IoScheduling

open IoScheduling.Text (Json)

def jsonObject (members : List (String × Json)) : Json :=
  .object (members.map fun (name, value) => (some name, value))

def AggregationTally.toJson (t : AggregationTally) : Json :=
  jsonObject [
    ("aggregations", .ofNat t.aggregations),
    ("dispatched_entries", .ofNat t.entries),
    ("dispatched_requests", .ofNat t.requests),
    ("best", .ofNat t.best),
    ("last", .ofNat t.last)]

def FileSnapshot.toJson (f : FileSnapshot) : Json :=
  jsonObject [
    ("file_id", .ofString f.file),
    ("pending_reads", .ofNat f.pendingReads),
    ("pending_writes", .ofNat f.pendingWrites),
    ("timeline_pending", .ofNat f.onTimeline),
    ("dispatched", .ofNat f.handedOut),
    ("read_aggregation", f.reads.toJson),
    ("write_aggregation", f.writes.toJson)]

/-- The policies appear in the order of their names. -/
def LedgerSnapshot.toJson (l : LedgerSnapshot) : Json :=
  let perPolicy := (l.perPolicy.map fun (k, n) => (k.name, n)).mergeSort fun a b =>
    decide (a.1 ≤ b.1)
  jsonObject [
    ("received", .ofNat l.received),
    ("dispatched_requests", .ofNat l.dispatchedRequests),
    ("dispatched_entries", .ofNat l.dispatchedEntries),
    ("released", .ofNat l.released),
    ("released_bytes", .ofNat l.releasedBytes),
    ("cancelled", .ofNat l.cancelled),
    ("aggregations", .ofNat l.aggregations),
    ("max_aggregation", .ofNat l.maxAggregation),
    ("migrations", .ofNat l.migrations),
    ("lock_retries", .ofNat l.lockRetries),
    ("waits", .ofNat l.waits),
    ("not_found", .ofNat l.notFound),
    ("per_policy", jsonObject (perPolicy.map fun (name, n) => (name, .ofNat n)))]

def Report.toJson (r : Report) : Json :=
  jsonObject [
    ("current_policy", .ofString r.policy),
    ("pending_requests", .ofNat r.pendingRequests),
    ("pending_files", .ofNat r.pendingFiles),
    ("global", r.ledger.toJson),
    ("files", .array (r.files.map FileSnapshot.toJson))]

def Report.text (r : Report) : String := r.toJson.pretty

end IoScheduling
