import IoScheduling.Pending.FileState
import IoScheduling.Report.Ledger

/-!
# Reports

A report shows the active policy, the pending requests, a reading of the ledger and every file.
-/
namespace IoScheduling

structure Report where
  policy : String
  pendingRequests : Nat
  pendingFiles : Nat
  ledger : LedgerSnapshot
  files : List FileSnapshot
  deriving DecidableEq, Repr

end IoScheduling
