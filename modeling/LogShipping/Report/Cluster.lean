import LogShipping.Cluster.Settle
import LogShipping.Report.Metrics

/-!
# Reports on clusters

JSON documents that show the nodes of a cluster, how their workers fare, what remote clusters have
received, and what was measured.
-/

namespace LogShipping.Report

/-- The most failures in a row that are told apart. -/
def maxFailures : Nat := 5

def queueHealth (queue : Engine.QueueHealth) : Json := record [
  ("key", queue.key.text), ("state", Cluster.reported queue.state), ("files", queue.files),
  ("file_seq", queue.position.seq.toNat), ("offset", queue.position.offset),
  ("failures", .nat (min maxFailures queue.failures)), ("edits_shipped", queue.edits),
  ("ever_shipped", queue.hasShipped)]

def health (health : Engine.Health) : Json := record [
  ("state", health.state.name), ("replicating", health.replicating), ("ready", health.ready),
  ("healthy", health.healthy), ("peers", health.peers),
  ("circuit_open", .list text health.openCircuits), ("queues", .list queueHealth health.queues)]

def farewell (farewell : Engine.Farewell) : Json :=
  record [("dropped", keys farewell.dropped), ("retained", keys farewell.retained)]

def nodes (cluster : Cluster) : Json :=
  record <| cluster.nodes.map fun (node, state, workers) ↦
    (node, .array [state.name, .list (fun (key, state) ↦ .array [key.text, state]) workers])

def shipment (shipment : Shipment) : Json := record [
  ("peer", shipment.peer), ("edits", shipment.edits), ("cells", shipment.cells),
  ("seqs", .list (fun entry ↦ entry.sequence.toNat) shipment.entries)]

/-- The shipments of each origin. -/
def shipments (shipments : List Shipment) : Json :=
  record <| (shipments.map (·.origin)).eraseDups.map fun origin ↦
    (origin, .list shipment (shipments.filter (·.origin == origin)))

/-- What a remote cluster received since an earlier state of it, if anything. -/
def news? (before after : Remote) : Option (String × Json) :=
  let accepted := after.accepted.drop before.accepted.length
  if after.attempts = before.attempts && accepted.isEmpty then none
  else some (after.name, record [
    ("attempts", .nat (after.attempts - before.attempts)), ("batches", shipments accepted)])

/-- What the remote clusters received since an earlier state of the world, if anything. -/
def shipped? (before after : World) : Option Json :=
  match after.remotes.filterMap fun remote ↦ news? (before.remote remote.name) remote with
  | [] => none
  | news => some (record news)

/-- The names of the counts that are summed up over the life of a cluster. -/
def totalNames : List String := [
  "replication_batches_shipped_total", "replication_edits_shipped_total",
  "replication_wal_unreadable_total", "replication_failover_transfers_total",
  "replication_peer_changes_total", "replication_ship_failures_total"]

/-- How often a peer's open circuit rejects a call depends on how long one looks, so of these rejections
only one is shown. -/
def clampRejections : Measure → Bool
  | .shipFailure _ reason => reason = "circuit_open"
  | _ => false

/-- The measures with only one rejection of each open circuit. -/
def withoutRepeats (measures : List Measure) : List Measure :=
  measures.filter (!clampRejections ·) ++ (measures.filter clampRejections).eraseDups

def totals (measures : List Measure) : Json :=
  record (totalNames.map fun name ↦ (name, total name (withoutRepeats measures)))

end LogShipping.Report
