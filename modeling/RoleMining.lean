import RoleMining.Main
import RoleMining.Proofs.Truncation
import RoleMining.Run.Journal
import RoleMining.Service.Endpoint
import RoleMining.Proofs.Stoppable
import RoleMining.Proofs.Analysis.Mining
import RoleMining.Proofs.Analysis.Completion
import RoleMining.Proofs.Cluster.Gathering
import RoleMining.Proofs.Analysis.Agreement
import RoleMining.Proofs.Detection.Copying
import RoleMining.Proofs.Detection.Copies
import RoleMining.Proofs.Cluster.Links
import RoleMining.Proofs.Cluster.Division
import RoleMining.Proofs.Cluster.Accounting
import RoleMining.Proofs.Cluster.Joining
import RoleMining.Proofs.Order.Invariance
import RoleMining.Proofs.Pool.Programs
import RoleMining.Proofs.Analysis.Interruption
import RoleMining.Proofs.Cluster.AllPairs
import RoleMining.Proofs.Analysis.Feasibility
import RoleMining.Proofs.Service.Requests
import RoleMining.Proofs.Chunk.Partition
import RoleMining.Proofs.Chunk.Axes
import RoleMining.Proofs.Chunk.Expansion
import RoleMining.Proofs.Chunk.Twins
import RoleMining.Proofs.Binary64.Range
import RoleMining.Proofs.Detection.Narrowing
import RoleMining.Proofs.Number
import RoleMining.Proofs.Detection.Sifting
import RoleMining.Proofs.Detection.Duality
import RoleMining.Proofs.Chunk.UserWeight
import RoleMining.Proofs.Cluster.Removal
import RoleMining.Proofs.Settings.Layers
import RoleMining.Proofs.Cluster.Coherence
import RoleMining.Proofs.Population.Union
import RoleMining.Proofs.Settings.Acceptance
import RoleMining.Proofs.Settings.Saving
import RoleMining.Proofs.Polling
