import RecyclingStack.Arena.Lemmas
import RecyclingStack.Arena.Request
import RecyclingStack.Backoff
import RecyclingStack.Pool.Lease
import RecyclingStack.Retired.Request
import RecyclingStack.Session.Report
import RecyclingStack.Workload.Basic
import RecyclingStack.Proofs.Memory.Chain
import RecyclingStack.Proofs.Memory.Layout
import RecyclingStack.Proofs.Memory.Moves
import RecyclingStack.Proofs.Memory.Nodes
import RecyclingStack.Proofs.Memory.Tidy
import RecyclingStack.Proofs.Memory.Turns
import RecyclingStack.Proofs.Session.Holding
import RecyclingStack.Proofs.Session.Ledger
import RecyclingStack.Proofs.Session.Steps
import RecyclingStack.Proofs.Session.Partition
import RecyclingStack.Proofs.Session.Calls
import RecyclingStack.Proofs.Session.Lifo
import RecyclingStack.Proofs.Session.Termination
import RecyclingStack.Proofs.Session.Conservation
import RecyclingStack.Proofs.Interleaving.History
import RecyclingStack.Proofs.Interleaving.Hands
import RecyclingStack.Proofs.Interleaving.Phases
import RecyclingStack.Proofs.Interleaving.Accesses
import RecyclingStack.Proofs.Interleaving.Crew
import RecyclingStack.Proofs.Interleaving.Linear
import RecyclingStack.Proofs.Interleaving.Runs
import RecyclingStack.Proofs.Interleaving.Places
import RecyclingStack.Proofs.Interleaving.Traffic
import RecyclingStack.Proofs.Interleaving.Custody
import RecyclingStack.Proofs.Interleaving.Calls
import RecyclingStack.Proofs.Memory.Values
import RecyclingStack.Proofs.Interleaving.Shutdown
import RecyclingStack.Proofs.Memory.Relinks
import RecyclingStack.Proofs.Memory.Drift
import RecyclingStack.Proofs.Memory.HandOut
import RecyclingStack.Proofs.Session.Drift
import RecyclingStack.Proofs.Session.Grace
import RecyclingStack.Proofs.Memory.Recurrence
import RecyclingStack.Proofs.Session.Recurrence
import RecyclingStack.Proofs.Interleaving.Recurrence
import RecyclingStack.Proofs.Memory.Extent
import RecyclingStack.Proofs.Session.Changes
import RecyclingStack.Proofs.Session.Usage
import RecyclingStack.Proofs.Session.Exhaustion
import RecyclingStack.Proofs.Session.Shedding
import RecyclingStack.Proofs.Session.Frozen
import RecyclingStack.Proofs.Interleaving.Feeding
import RecyclingStack.Proofs.Interleaving.Filling
import RecyclingStack.Proofs.Memory.Bags
import RecyclingStack.Proofs.Memory.Tags
import RecyclingStack.Proofs.Memory.Epochs
import RecyclingStack.Proofs.Memory.Flushing
import RecyclingStack.Proofs.Memory.Backlog
import RecyclingStack.Proofs.Session.Reclaiming
import RecyclingStack.Proofs.Session.Deregistering
import RecyclingStack.Proofs.Session.Timely
import RecyclingStack.Proofs.Session.Flushing
import RecyclingStack.Proofs.Session.Backlog
import RecyclingStack.Proofs.Memory.Building
import RecyclingStack.Proofs.Memory.Borrowing
import RecyclingStack.Proofs.Memory.OneByOne
import RecyclingStack.Proofs.Session.Returns
import RecyclingStack.Proofs.Session.Courses
import RecyclingStack.Proofs.Session.Batches
import RecyclingStack.Proofs.Session.Discarding
import RecyclingStack.Proofs.Session.RollBack
import RecyclingStack.Proofs.Memory.Sooner
import RecyclingStack.Proofs.Session.Lockstep
import RecyclingStack.Proofs.Session.Level
import RecyclingStack.Proofs.Session.Sooner
import RecyclingStack.Proofs.Memory.Filing
import RecyclingStack.Proofs.Memory.Leasing
import RecyclingStack.Proofs.Memory.Growth
import RecyclingStack.Proofs.Session.Rhythm
import RecyclingStack.Proofs.Session.Coherence
import RecyclingStack.Proofs.Session.Teardown
