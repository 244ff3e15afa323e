import LogShipping.Report.Log
import LogShipping.Retry
import LogShipping.Settings
import LogShipping.Circuit
import LogShipping.Verify.Arguments

/-!
# Reports on settings

JSON documents that show durations, what the settings of a node come to, how a circuit fares and what
the verification job was told.
-/

namespace LogShipping.Report

def duration (duration : Duration) : Json :=
  record [("s", duration.seconds), ("ns", duration.nanoseconds)]

/-- The limit on the rate of shipping: a burst, and a number each second. -/
def rate (limit : Nat × Nat) : Json := record [("burst", limit.1), ("rate", limit.2)]

/-- What the settings of a node come to. -/
def settings (node : NodeSettings) : List (String × Json) :=
  let source := node.settings.source
  [("config", node.toJson), ("sleep_for_retries", duration source.retrySleep),
    ("ship_timeout", duration source.shipDeadline), ("poll_interval", duration source.pollEvery),
    ("circuit_reset_timeout", duration source.circuitReset),
    ("claim_delay", duration node.settings.failover.delay),
    ("rate_limit", .ofOption rate source.rateLimit?),
    ("circuit", record [("failures", source.circuitFailureThreshold), ("successes", .nat 1),
      ("recovery", duration source.circuitReset)]),
    ("stream_key", node.settings.stream.key), ("in_memory", node.store.isInMemory)]

/-- Whether a latency is too long for a read, and whether it is for a shipment. -/
def violations (settings : LatencySettings) (latency : Duration) : Json :=
  .array [settings.isReadViolation latency, settings.isShipViolation latency]

def retries (policy : RetryPolicy) : List (String × Json) := [
  ("max_attempts", policy.attempts), ("initial", duration policy.first),
  ("max", duration policy.ceiling), ("connect_timeout", duration policy.deadline)]

def circuit (circuit : Circuit) : Json := .array [
  circuit.calls, circuit.successes, circuit.failures, circuit.rejections, circuit.looksOpen]

def arguments (arguments : Verify.Arguments) : Json := record [
  ("peer_id", arguments.peer), ("table", arguments.table),
  ("families", .list text arguments.families), ("start", .ofOption .int arguments.start),
  ("stop", .ofOption .int arguments.stop)]

end LogShipping.Report
