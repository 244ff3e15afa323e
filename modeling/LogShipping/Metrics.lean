import LogShipping.Decimal
import LogShipping.Duration.Float

/-!
# Metrics

What is measured while logs are shipped, and the samples each measurement writes: counts to add up,
levels, and observations of a distribution, each under a name and with labels.
-/

namespace LogShipping

namespace Metrics

inductive Value
  | count (amount : Nat)
  | level (value : Float)
  | observation (value : Float)

structure Sample where
  name : String
  labels : List (String × String)
  value : Value

def level (name : String) (labels : List (String × String)) (value : Float) : Sample :=
  ⟨name, labels, .level value⟩

def count (name : String) (labels : List (String × String)) (amount : Nat) : Sample :=
  ⟨name, labels, .count amount⟩

def observation (name : String) (labels : List (String × String)) (value : Float) : Sample :=
  ⟨name, labels, .observation value⟩

/-- The double nearest to a 64-bit word. -/
def word (value : Nat) : Float := (UInt64.ofNat value).toFloat

end Metrics

/-- One measurement. -/
inductive Measure
  | peerCount (peers : Nat)
  | replicating (on : Bool)
  | peerChange (action : String)
  | peerConnection (peer : String) (success : Bool)
  | editsRead (peer : String) (kept filtered : Nat)
  | readLatency (peer : String) (latency : Duration)
  | batchShipped (peer : String) (edits : Nat) (latency : Duration)
  | shipFailure (peer reason : String)
  | queueFiles (peer origin : String) (files : Nat)
  | logPosition (peer origin : String) (seq offset : Nat)
  | logLoss (peer reason : String)
  | activeWorkers (workers : Nat)
  | storeRetry (operation : String)
  | staleOwnership (peer : String)
  | failoverTransfer (peer : String)
  | failoverPass (transferred orphaned dropped : Nat) (latency : Duration)
  | engineState (state : String)
  | circuitRejection (circuit : String)
  | latencyViolation (peer goal : String) (milliseconds : Nat)
  | verifiedRows (peer table : String) (good bad : Nat)
  deriving Repr, DecidableEq

namespace Measure

open Metrics

/-- The level that stands for a state of an engine. -/
def stateLevel (state : String) : Float :=
  if state = "Created" then 0
  else if state = "Starting" then 1
  else if state = "Running" then 2
  else if state = "ShuttingDown" then 3
  else if state = "Stopped" then 4
  else if state = "Failed" then 5
  else -1

def samples : Measure → List Sample
  | peerCount peers => [level "replication_peers" [] (word peers)]
  | replicating on => [level "replication_replicating" [] (if on then 1 else 0)]
  | peerChange action => [count "replication_peer_changes_total" [("action", action)] 1]
  | peerConnection peer success =>
    [count "replication_peer_connections_total"
      [("peer_id", peer), ("status", if success then "success" else "failure")] 1]
  | editsRead peer kept filtered =>
    (if 0 < kept then [count "replication_edits_read_total" [("peer_id", peer)] kept] else []) ++
      if 0 < filtered then [count "replication_edits_filtered_total" [("peer_id", peer)] filtered]
      else []
  | readLatency peer latency =>
    [observation "replication_wal_read_duration_seconds" [("peer_id", peer)] latency.toFloat]
  | batchShipped peer edits latency => [
    count "replication_batches_shipped_total" [("peer_id", peer)] 1,
    count "replication_edits_shipped_total" [("peer_id", peer)] edits,
    observation "replication_ship_duration_seconds" [("peer_id", peer)] latency.toFloat,
    observation "replication_batch_size" [("peer_id", peer)] (word edits)]
  | shipFailure peer reason =>
    [count "replication_ship_failures_total" [("peer_id", peer), ("reason", reason)] 1]
  | queueFiles peer origin files =>
    [level "replication_queue_files" [("peer_id", peer), ("origin", origin)] (word files)]
  | logPosition peer origin seq offset => [
    level "replication_log_file_seq" [("peer_id", peer), ("origin", origin)] (word seq),
    level "replication_log_offset" [("peer_id", peer), ("origin", origin)] (word offset)]
  | logLoss peer reason =>
    [count "replication_wal_unreadable_total" [("peer_id", peer), ("reason", reason)] 1]
  | activeWorkers workers => [level "replication_active_workers" [] (word workers)]
  | storeRetry operation =>
    [count "replication_store_retries_total" [("operation", operation)] 1]
  | staleOwnership peer => [count "replication_stale_ownership_total" [("peer_id", peer)] 1]
  | failoverTransfer peer => [count "replication_failover_transfers_total" [("peer_id", peer)] 1]
  | failoverPass transferred orphaned dropped latency =>
    [count "replication_failover_passes_total" [] 1,
      level "replication_orphaned_queues" [] (word orphaned)] ++
    (if 0 < dropped then [count "replication_failover_dropped_total" [] dropped] else []) ++
    [observation "replication_failover_duration_seconds" [] latency.toFloat,
      observation "replication_failover_queues" [] (word transferred)]
  | engineState state => [level "replication_engine_state" [] (stateLevel state)]
  | circuitRejection circuit =>
    [count "replication_circuit_rejections_total" [("circuit", circuit)] 1]
  | latencyViolation peer goal milliseconds => [
    count "replication_slo_violations_total" [("peer_id", peer), ("slo_type", goal)] 1,
    observation "replication_slo_violation_latency_ms" [("peer_id", peer), ("slo_type", goal)]
      (word milliseconds)]
  | verifiedRows peer table good bad => [
    count "replication_verify_good_rows_total" [("peer_id", peer), ("table", table)] good,
    count "replication_verify_bad_rows_total" [("peer_id", peer), ("table", table)] bad]

end Measure

namespace Metrics

/-- The values of a sample's labels, in the order of the labels' names. -/
def labelText (sample : Sample) : String :=
  "|".intercalate ((sample.labels.mergeSort fun x y ↦ x.1 ≤ y.1).map (·.2))

def addTo (label : String) (amount : Nat) : List (String × Nat) → List (String × Nat)
  | [] => [(label, amount)]
  | (other, sum) :: rest =>
    if other = label then (other, sum + amount) :: rest else (other, sum) :: addTo label amount rest

/-- The sums of the counts of one name, by the values of their labels. -/
def totals (name : String) (measures : List Measure) : List (String × Nat) :=
  (measures.flatMap Measure.samples).foldl (fun sums sample ↦
    match sample.value with
    | .count amount => if sample.name = name then addTo (labelText sample) amount sums else sums
    | _ => sums) []

end Metrics

end LogShipping
