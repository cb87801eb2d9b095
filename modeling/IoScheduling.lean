import IoScheduling.Config.Reader
import IoScheduling.Proofs.Shape
import IoScheduling.Proofs.Splitting
import IoScheduling.Report.Writer
import IoScheduling.Service.Thread
import IoScheduling.Simulation.Bench
import IoScheduling.Proofs.Queue
import IoScheduling.Proofs.Lanes
import IoScheduling.Proofs.Files
import IoScheduling.Proofs.Buckets
import IoScheduling.Proofs.Indexes
import IoScheduling.Proofs.Timeline
import IoScheduling.Proofs.Cores
import IoScheduling.Proofs.Migration
import IoScheduling.Proofs.Runs
import IoScheduling.Proofs.Structure
import IoScheduling.Proofs.Balance
import IoScheduling.Proofs.Conservation
import IoScheduling.Proofs.Counting
import IoScheduling.Proofs.Entries
import IoScheduling.Proofs.Relocation
import IoScheduling.Proofs.Scans
import IoScheduling.Proofs.Starvation
import IoScheduling.Proofs.Insertion
import IoScheduling.Proofs.Notes
import IoScheduling.Proofs.Records
import IoScheduling.Proofs.Acknowledgment
import IoScheduling.Proofs.Schedules
import IoScheduling.Proofs.Cooldowns
import IoScheduling.Proofs.BusyPeriods
import IoScheduling.Proofs.Priorities
import IoScheduling.Proofs.WindowOrder
import IoScheduling.Proofs.Merging
import IoScheduling.Proofs.Withdrawal
import IoScheduling.Proofs.DegenerateOrders
import IoScheduling.Proofs.Reports
import IoScheduling.Proofs.ArrivalOrder
import IoScheduling.Proofs.Hosts
import IoScheduling.Proofs.Upkeep
import IoScheduling.Proofs.OffsetOrder
import IoScheduling.Proofs.Effort
import IoScheduling.Proofs.Progress
import IoScheduling.Proofs.ScanProgress
import IoScheduling.Proofs.BurstProgress
import IoScheduling.Proofs.Termination
import IoScheduling.Proofs.Isolation
import IoScheduling.Proofs.Exhaustion
import IoScheduling.Proofs.Resets
import IoScheduling.Proofs.Twins
import IoScheduling.Proofs.Callers
import IoScheduling.Proofs.Runtimes
import IoScheduling.Proofs.Deliveries
import IoScheduling.Proofs.Custody
import IoScheduling.Proofs.Statistics
import IoScheduling.Proofs.Agreement
import IoScheduling.Proofs.Releases
import IoScheduling.Proofs.Periods
import IoScheduling.Proofs.Selections
import IoScheduling.Proofs.Alterations
import IoScheduling.Proofs.ScanOutcomes
import IoScheduling.Proofs.Turns
import IoScheduling.Proofs.Bursts
import IoScheduling.Proofs.Confirmations
import IoScheduling.Proofs.RecentSizes
import IoScheduling.Proofs.StoredPriorities
import IoScheduling.Proofs.Samples
import IoScheduling.Proofs.ShortestFirst
