import LogShipping.Log.Writer
import LogShipping.Proofs.Engine.Farewells
import LogShipping.Proofs.Engine.Discards
import LogShipping.Proofs.Engine.Connections
import LogShipping.Proofs.Engine.Occupancy
import LogShipping.Proofs.Engine.Readmission
import LogShipping.Proofs.Peer.Registration
import LogShipping.Proofs.Queue.Fencing
import LogShipping.Proofs.Queue.Representation
import LogShipping.Proofs.Worker.Delivery
import LogShipping.Proofs.Worker.Gates
import LogShipping.Proofs.Worker.Post
import LogShipping.Proofs.Worker.TakeBack
import LogShipping.Report.Cluster
import LogShipping.Report.Settings
import LogShipping.Verify.Comparison
import LogShipping.Proofs.Failover.Rivals
import LogShipping.Proofs.Json.Documents
import LogShipping.Proofs.Checksum.Crc32
import LogShipping.Proofs.Json.Prefix
import LogShipping.Proofs.Log.Entries
import LogShipping.Proofs.Log.Frames
import LogShipping.Proofs.Log.Written
import LogShipping.Proofs.Log.Committed
import LogShipping.Proofs.Worker.Stall
import LogShipping.Proofs.Worker.Arrivals
import LogShipping.Proofs.Peer.Refresh
import LogShipping.Proofs.Circuit.Opening
import LogShipping.Proofs.Peer.Copies
import LogShipping.Proofs.Queue.Atomicity
import LogShipping.Proofs.Failover.Durability
import LogShipping.Proofs.Queue.Folding
import LogShipping.Proofs.Queue.Tiling
import LogShipping.Proofs.Failover.Balance
import LogShipping.Proofs.Failover.Accounts
import LogShipping.Proofs.Queue.Consumption
import LogShipping.Proofs.Queue.SignedOrder
import LogShipping.Proofs.Batch.Scope
import LogShipping.Proofs.Batch.Damage
import LogShipping.Proofs.Log.Buffering
import LogShipping.Proofs.Log.Tailing
import LogShipping.Proofs.Worker.Pace
import LogShipping.Proofs.Worker.Spinning
import LogShipping.Proofs.Log.Lengths
import LogShipping.Proofs.Worker.Lengths
import LogShipping.Proofs.Worker.Drained
import LogShipping.Proofs.Verify.Texts
import LogShipping.Proofs.Verify.Joining
import LogShipping.Proofs.Verify.Verdicts
import LogShipping.Proofs.Failover.Preference
import LogShipping.Proofs.Settings.Backoff
import LogShipping.Proofs.Stream.Payloads
import LogShipping.Proofs.Circuit.History
import LogShipping.Proofs.Circuit.Report
import LogShipping.Proofs.Log.Canonical
import LogShipping.Proofs.Log.Creation
import LogShipping.Proofs.Verify.Digests
