import Flowgraph.Event.Bus
import Flowgraph.Event.Format
import Flowgraph.Graph.Builder
import Flowgraph.Graph.Drawing
import Flowgraph.Graph.Record
import Flowgraph.Run.Call
import Flowgraph.Settings
import Flowgraph.Proofs.Plan.Peeling
import Flowgraph.Proofs.Plan.Order
import Flowgraph.Proofs.Plan.Tables
import Flowgraph.Proofs.Plan.Routes
import Flowgraph.Proofs.Plan.Cycles
import Flowgraph.Proofs.Run.Lineage
import Flowgraph.Proofs.Run.Barriers
import Flowgraph.Proofs.Run.Dataflow
import Flowgraph.Proofs.Run.ApprovalGate
import Flowgraph.Proofs.Plan.Paths
import Flowgraph.Proofs.Run.Length
import Flowgraph.Proofs.Run.Journal
import Flowgraph.Proofs.Run.Completion
import Flowgraph.Proofs.Run.Layers
import Flowgraph.Proofs.Run.Retries
import Flowgraph.Proofs.Run.Suspension
import Flowgraph.Proofs.Run.Staffing
import Flowgraph.Proofs.Run.Repeats
import Flowgraph.Proofs.Names.Bytes
import Flowgraph.Proofs.Plan.LeastOrder
import Flowgraph.Proofs.Run.Announcements
import Flowgraph.Proofs.Plan.Declarations
import Flowgraph.Proofs.Plan.Reachability
import Flowgraph.Proofs.Description.Written
import Flowgraph.Proofs.Checkpoint.Stores
import Flowgraph.Proofs.Run.Limit
import Flowgraph.Proofs.State.Merging
import Flowgraph.Proofs.Run.Reports
import Flowgraph.Proofs.Json.Scalars
import Flowgraph.Proofs.Json.Reading
import Flowgraph.Proofs.Text.Trimming
import Flowgraph.Proofs.Predicate.Scanning
import Flowgraph.Proofs.Predicate.Accessors
import Flowgraph.Proofs.Predicate.Operands
import Flowgraph.Proofs.Predicate.Comparisons
import Flowgraph.Proofs.Event.Delivery
import Flowgraph.Proofs.Plan.Remaining
import Flowgraph.Proofs.Plan.Contents
import Flowgraph.Proofs.Predicate.Quotes
import Flowgraph.Proofs.Step.Quoting
import Flowgraph.Proofs.Template.Paths
import Flowgraph.Proofs.Template.Substitution
import Flowgraph.Proofs.Step.Conditions
import Flowgraph.Proofs.Step.Decisions
import Flowgraph.Proofs.Template.Dependence
import Flowgraph.Proofs.State.Lookup
import Flowgraph.Proofs.Plan.Numbering
import Flowgraph.Proofs.Json.Inline
import Flowgraph.Proofs.Event.Framing
import Flowgraph.Proofs.Predicate.Wholes
import Flowgraph.Proofs.Description.References
