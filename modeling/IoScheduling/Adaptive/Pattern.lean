import IoScheduling.Config.Basic
import IoScheduling.Report.Basic

/-!
# Access patterns and the decision tree

The decision tree watches the workload for one period, sums it up as a pattern and commits itself
to the policy that its rules give for the pattern.
-/
namespace IoScheduling

structure AccessPattern where
  files : Nat
  requests : Nat
  readFraction : Float
  mergedFraction : Float
  meanRequestSize : Float
  deriving Repr

def ratio (part whole : Nat) : Float :=
  if whole = 0 then 0.0 else wordToFloat part / wordToFloat whole

namespace FileSnapshot

def dispatchedRequests (f : FileSnapshot) : Nat := f.reads.requests + f.writes.requests

def dispatchedEntries (f : FileSnapshot) : Nat := f.reads.entries + f.writes.entries

def activity (f : FileSnapshot) : Nat :=
  f.dispatchedRequests + (f.pendingReads + f.pendingWrites + f.onTimeline)

end FileSnapshot

def AccessPattern.ofReport (r : Report) : AccessPattern :=
  let active := r.files.filter fun f => f.activity ≠ 0
  let total (f : FileSnapshot → Nat) : Nat := sumOf f active
  let dispatched := total FileSnapshot.dispatchedRequests
  { files := active.length
    requests := total FileSnapshot.activity
    readFraction :=
      ratio (total fun f => f.reads.requests + f.pendingReads) (total FileSnapshot.activity)
    mergedFraction := ratio (dispatched - total FileSnapshot.dispatchedEntries) dispatched
    meanRequestSize := ratio r.ledger.releasedBytes r.ledger.released }

def smallRequest : Float := 64.0 * 1024.0

/-- The rules: one file calls for arrival order, merging requests for a policy that merges, and
small requests for multi-level feedback. -/
def AccessPattern.suggest (p : AccessPattern) : PolicyKind :=
  if p.files ≤ 1 then
    if p.mergedFraction ≥ 0.5 then .timeOrderMerging else .timeOrder
  else if p.mergedFraction ≥ 0.5 then .aioli
  else if p.meanRequestSize < smallRequest then .feedback
  else .shortestJob

structure DecisionTree where
  default : PolicyKind
  chosen : Option PolicyKind
  deriving DecidableEq, Repr

namespace DecisionTree

def ofConfig (c : Config) : DecisionTree := ⟨c.defaultKind, none⟩

def initial (t : DecisionTree) : PolicyKind := t.chosen.getD t.default

/-- The first pattern decides; later ones change nothing. -/
def decide (t : DecisionTree) (p : AccessPattern) : PolicyKind × DecisionTree :=
  match t.chosen with
  | some k => (k, t)
  | none => (p.suggest, { t with chosen := some p.suggest })

end DecisionTree

end IoScheduling
