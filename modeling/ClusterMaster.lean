import ClusterMaster.Codec.Answer
import ClusterMaster.Document.Json.Writer
import ClusterMaster.Main
import ClusterMaster.Rehearsal.Clients
import ClusterMaster.Rehearsal.Passes
import ClusterMaster.Proofs.Naming
import ClusterMaster.Proofs.Shares
import ClusterMaster.Proofs.FreshShares
import ClusterMaster.Proofs.SteadyShares
import ClusterMaster.Proofs.BoundShares
import ClusterMaster.Proofs.Calls
import ClusterMaster.Proofs.Offers
import ClusterMaster.Proofs.SteadyAgain
import ClusterMaster.Proofs.Coverage
import ClusterMaster.Proofs.Evenness
import ClusterMaster.Proofs.Retention
import ClusterMaster.Proofs.Acknowledgement
import ClusterMaster.Proofs.Convergence
import ClusterMaster.Proofs.Subscribers
import ClusterMaster.Proofs.Strays
import ClusterMaster.Proofs.Resumption
import ClusterMaster.Proofs.Publishers
import ClusterMaster.Proofs.Resolving
import ClusterMaster.Proofs.Accounts
import ClusterMaster.Proofs.Batches
import ClusterMaster.Proofs.Fairness
import ClusterMaster.Proofs.Seclusion
import ClusterMaster.Proofs.Lifecycles
import ClusterMaster.Proofs.Ascent
import ClusterMaster.Proofs.FastStart
import ClusterMaster.Proofs.Refusals
import ClusterMaster.Proofs.Sharding
import ClusterMaster.Proofs.Courses
import ClusterMaster.Proofs.Declarations
import ClusterMaster.Proofs.Changes
import ClusterMaster.Proofs.Agreement
import ClusterMaster.Proofs.Allocation
import ClusterMaster.Proofs.Deliveries
import ClusterMaster.Proofs.Edits
import ClusterMaster.Proofs.Reloading
import ClusterMaster.Proofs.Overlaps
import ClusterMaster.Proofs.Timeouts
import ClusterMaster.Proofs.SilentConsumers
