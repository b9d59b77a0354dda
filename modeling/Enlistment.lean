import Enlistment.Coordinator
import Enlistment.Json.Input
import Enlistment.Json.Report
import Enlistment.Json.Status
import Enlistment.LockOrder
import Enlistment.Proofs.Stream.Receiving
import Enlistment.Proofs.Stream.Sending
import Enlistment.Proofs.Wire.RoundTrip
import Enlistment.Simulation.Turn
import Enlistment.Stream.Pool
import Enlistment.Proofs.Wire.Continuation
import Enlistment.Proofs.Wire.Settling
import Enlistment.Proofs.Message.Layouts
import Enlistment.Proofs.Message.Rows
import Enlistment.Proofs.Message.Views
import Enlistment.Proofs.Message.Marshalling
import Enlistment.Proofs.Message.Faults
import Enlistment.Proofs.Stream.Building
import Enlistment.Proofs.Stream.RoundTrip
import Enlistment.Proofs.Node.Handling
import Enlistment.Proofs.Store.Tables
import Enlistment.Proofs.Store.Versions
import Enlistment.Proofs.Store.Changes
import Enlistment.Proofs.Node.Trying
import Enlistment.Proofs.Node.Batches
import Enlistment.Proofs.Node.Actions
import Enlistment.Proofs.Node.Locking
import Enlistment.Proofs.Node.Isolation
import Enlistment.Proofs.Node.Splitting
import Enlistment.Proofs.Stream.Delivery
import Enlistment.Proofs.Caller.Answers
import Enlistment.Proofs.Caller.Exchanges
import Enlistment.Proofs.Caller.Mapping
import Enlistment.Proofs.Caller.Network
import Enlistment.Proofs.Caller.Rounds
import Enlistment.Proofs.Caller.Accounts
import Enlistment.Proofs.Caller.ExactlyOnce
import Enlistment.Proofs.Node.Cleanup
import Enlistment.Proofs.Message.Rebuilding
import Enlistment.Proofs.Stream.Failing
import Enlistment.Proofs.Wire.Completion
import Enlistment.Proofs.Stream.Chunking
import Enlistment.Proofs.Stream.Requests
import Enlistment.Proofs.Node.PureCode
import Enlistment.Proofs.Node.Sharing
import Enlistment.Proofs.Caller.PureRequests
import Enlistment.Proofs.Caller.SteadyRuns
import Enlistment.Proofs.Caller.Merging
import Enlistment.Proofs.Caller.Distribution
import Enlistment.Proofs.Caller.Correlation
import Enlistment.Proofs.Node.Visibility
import Enlistment.Proofs.Caller.Refusals
import Enlistment.Proofs.Node.Ownership
import Enlistment.Proofs.Caller.Screening
import Enlistment.Proofs.Caller.Malformed
import Enlistment.Proofs.Node.LastWrites
import Enlistment.Proofs.Caller.RegistryUse
import Enlistment.Proofs.Caller.Attendance
import Enlistment.Proofs.Caller.Sessions
import Enlistment.Proofs.Caller.Stranding
import Enlistment.Proofs.Caller.Causes
import Enlistment.Proofs.Caller.KeptBinary
import Enlistment.Proofs.Node.Commuting
import Enlistment.Proofs.Node.Topology
import Enlistment.Proofs.Node.StoredValues
import Enlistment.Proofs.Stream.Deployment
import Enlistment.Proofs.Store.Histories
import Enlistment.Proofs.Stream.Responses
import Enlistment.Proofs.Caller.Outcomes
import Enlistment.Proofs.Wire.Parsing
import Enlistment.Proofs.Stream.Canonical
import Enlistment.Proofs.Caller.ReceiveLimits
import Enlistment.Proofs.Store.Skipping
import Enlistment.Proofs.Store.Vacuums
import Enlistment.Proofs.Stream.RowShapes
import Enlistment.Proofs.Node.DecodedRows
import Enlistment.Proofs.Node.RowFaults
import Enlistment.Proofs.Stream.Preparing
import Enlistment.Proofs.Node.Retries
import Enlistment.Proofs.Stream.Resolution
import Enlistment.Proofs.Node.RowReports
import Enlistment.Proofs.Node.SkippedRows
import Enlistment.Proofs.Stream.Pooling
import Enlistment.Proofs.Stream.LengthLimits
import Enlistment.Proofs.Value.Identity
import Enlistment.Proofs.Node.LockVersions
import Enlistment.Proofs.Caller.Routing
import Enlistment.Proofs.Caller.Remapping
import Enlistment.Proofs.Caller.RowFailures
import Enlistment.Proofs.Message.Equality
import Enlistment.Proofs.Stream.FrameRuns
