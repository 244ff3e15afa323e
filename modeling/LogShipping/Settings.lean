import LogShipping.Duration.Text
import LogShipping.Json.Decode

/-!
# Settings

The settings of a node: how its workers batch, retry and limit what they ship, how it takes part in
failover, how it writes to a peer's stream, which latencies it is held to, and where the database
lies. Durations are kept as they were written and read when they are needed; one that names no
duration counts as its fallback. Every setting but the node's name, and the database's path where the
database is described at all, may be left out.
-/

namespace LogShipping

/-! ## Shipping -/

structure SourceSettings where
  /-- The size of entries kept at which a batch is full. -/
  sizeCapacity : Nat
  /-- The number of entries read at which a batch is full. -/
  countCapacity : Nat
  sleepForRetries : String
  /-- The largest multiple of the sleep between retries. -/
  maxRetriesMultiplier : Nat
  shipTimeout : String
  pollInterval : String
  maxConcurrentShips : Nat
  circuitFailureThreshold : Nat
  circuitResetTimeout : String
  rateLimitEnabled : Bool
  rateLimitPerSecond : Nat
  rateLimitBurst : Nat
  deriving Repr, DecidableEq

namespace SourceSettings

def standard : SourceSettings where
  sizeCapacity := 67108864
  countCapacity := 25000
  sleepForRetries := "1s"
  maxRetriesMultiplier := 10
  shipTimeout := "30s"
  pollInterval := "1s"
  maxConcurrentShips := 32
  circuitFailureThreshold := 5
  circuitResetTimeout := "10s"
  rateLimitEnabled := false
  rateLimitPerSecond := 10000
  rateLimitBurst := 1000

/-- Small batches and short waits. -/
def brisk : SourceSettings :=
  { standard with
    sizeCapacity := 1024
    countCapacity := 500
    sleepForRetries := "20ms"
    maxRetriesMultiplier := 5
    shipTimeout := "500ms"
    pollInterval := "25ms"
    maxConcurrentShips := 8
    circuitFailureThreshold := 50
    circuitResetTimeout := "50ms" }

def retrySleep (settings : SourceSettings) : Duration :=
  Duration.ofTextOr (Duration.ofSeconds 1) settings.sleepForRetries

def shipDeadline (settings : SourceSettings) : Duration :=
  Duration.ofTextOr (Duration.ofSeconds 30) settings.shipTimeout

def pollEvery (settings : SourceSettings) : Duration :=
  Duration.ofTextOr (Duration.ofSeconds 1) settings.pollInterval

def circuitReset (settings : SourceSettings) : Duration :=
  Duration.ofTextOr (Duration.ofSeconds 10) settings.circuitResetTimeout

/-- The wait after so many failures in a row: a multiple of the sleep that grows up to a ceiling. There
is none if it is too long for a duration. -/
def backoff? (settings : SourceSettings) (failures : Nat) : Option Duration :=
  settings.retrySleep.times? (max 1 (min failures (max settings.maxRetriesMultiplier 1)))

/-- Tokens at once and tokens per second, if shipping is limited. -/
def rateLimit? (settings : SourceSettings) : Option (Nat × Nat) :=
  if settings.rateLimitEnabled then some (settings.rateLimitBurst, settings.rateLimitPerSecond)
  else none

def toJson (settings : SourceSettings) : Json := .object [
  ("size_capacity", .nat settings.sizeCapacity),
  ("nb_capacity", .nat settings.countCapacity),
  ("sleep_for_retries", .text settings.sleepForRetries),
  ("max_retries_multiplier", .nat settings.maxRetriesMultiplier),
  ("ship_timeout", .text settings.shipTimeout),
  ("poll_interval", .text settings.pollInterval),
  ("max_concurrent_ships", .nat settings.maxConcurrentShips),
  ("circuit_failure_threshold", .nat settings.circuitFailureThreshold),
  ("circuit_reset_timeout", .text settings.circuitResetTimeout),
  ("rate_limit_enabled", .bool settings.rateLimitEnabled),
  ("rate_limit_per_sec", .nat settings.rateLimitPerSecond),
  ("rate_limit_burst", .nat settings.rateLimitBurst)]

/-- Settings left out are those of `base`. -/
def ofJson? (base : SourceSettings) (json : Json) : Option SourceSettings := do
  let fields ← Json.fields? ["size_capacity", "nb_capacity", "sleep_for_retries",
    "max_retries_multiplier", "ship_timeout", "poll_interval", "max_concurrent_ships",
    "circuit_failure_threshold", "circuit_reset_timeout", "rate_limit_enabled",
    "rate_limit_per_sec", "rate_limit_burst"] json
  let word := Json.natBelow? UInt64.size
  let half := Json.natBelow? UInt32.size
  let sizeCapacity ← fields.defaulted "size_capacity" base.sizeCapacity word
  let countCapacity ← fields.defaulted "nb_capacity" base.countCapacity word
  let sleepForRetries ← fields.defaulted "sleep_for_retries" base.sleepForRetries Json.text?
  let maxRetriesMultiplier ←
    fields.defaulted "max_retries_multiplier" base.maxRetriesMultiplier half
  let shipTimeout ← fields.defaulted "ship_timeout" base.shipTimeout Json.text?
  let pollInterval ← fields.defaulted "poll_interval" base.pollInterval Json.text?
  let maxConcurrentShips ← fields.defaulted "max_concurrent_ships" base.maxConcurrentShips word
  let circuitFailureThreshold ←
    fields.defaulted "circuit_failure_threshold" base.circuitFailureThreshold half
  let circuitResetTimeout ←
    fields.defaulted "circuit_reset_timeout" base.circuitResetTimeout Json.text?
  let rateLimitEnabled ← fields.defaulted "rate_limit_enabled" base.rateLimitEnabled Json.bool?
  let rateLimitPerSecond ← fields.defaulted "rate_limit_per_sec" base.rateLimitPerSecond half
  let rateLimitBurst ← fields.defaulted "rate_limit_burst" base.rateLimitBurst half
  return {
    sizeCapacity, countCapacity, sleepForRetries, maxRetriesMultiplier, shipTimeout, pollInterval
    maxConcurrentShips, circuitFailureThreshold, circuitResetTimeout, rateLimitEnabled
    rateLimitPerSecond, rateLimitBurst }

end SourceSettings

/-! ## Failover -/

structure FailoverSettings where
  enabled : Bool
  /-- How long to wait after a node's death before claiming its queues. -/
  claimDelay : String
  deriving Repr, DecidableEq

namespace FailoverSettings

def standard : FailoverSettings := ⟨true, "0s"⟩

def delay (settings : FailoverSettings) : Duration := Duration.ofTextOr 0 settings.claimDelay

def toJson (settings : FailoverSettings) : Json :=
  .object [("enabled", .bool settings.enabled), ("claim_delay", .text settings.claimDelay)]

def ofJson? (base : FailoverSettings) (json : Json) : Option FailoverSettings := do
  let fields ← Json.fields? ["enabled", "claim_delay"] json
  let enabled ← fields.defaulted "enabled" base.enabled Json.bool?
  let claimDelay ← fields.defaulted "claim_delay" base.claimDelay Json.text?
  return { enabled, claimDelay }

end FailoverSettings

/-! ## The stream of a peer -/

structure StreamSettings where
  /-- What the stream's key begins with. -/
  keyStart : Option String
  /-- Payloads of at least this many octets are compressed. -/
  compressThreshold : Nat
  /-- The length to which the stream is cut, none for zero. -/
  maxLength : Nat
  deriving Repr, DecidableEq

namespace StreamSettings

def standard : StreamSettings := ⟨none, 4096, 0⟩

def key (settings : StreamSettings) : String := settings.keyStart.getD "" ++ "replication:ingest"

def toJson (settings : StreamSettings) : Json := .object [
  ("key_prefix", .ofOption .text settings.keyStart),
  ("compress_threshold", .nat settings.compressThreshold),
  ("max_stream_len", .nat settings.maxLength)]

def ofJson? (base : StreamSettings) (json : Json) : Option StreamSettings := do
  let fields ← Json.fields? ["key_prefix", "compress_threshold", "max_stream_len"] json
  let keyStart ← fields.defaulted "key_prefix" base.keyStart (Json.optional? Json.text?)
  let compressThreshold ←
    fields.defaulted "compress_threshold" base.compressThreshold (Json.natBelow? UInt64.size)
  let maxLength ← fields.defaulted "max_stream_len" base.maxLength (Json.natBelow? UInt64.size)
  return { keyStart, compressThreshold, maxLength }

end StreamSettings

/-! ## Latency goals -/

structure LatencySettings where
  maxReadMilliseconds : Nat
  maxShipMilliseconds : Nat
  deriving Repr, DecidableEq

namespace LatencySettings

def standard : LatencySettings := ⟨100, 500⟩

/-- The whole milliseconds of a latency, modulo 2⁶⁴, are more than allowed. -/
def exceeds (limit : Nat) (latency : Duration) : Bool := limit < latency.milliseconds % UInt64.size

def isReadViolation (settings : LatencySettings) : Duration → Bool :=
  exceeds settings.maxReadMilliseconds

def isShipViolation (settings : LatencySettings) : Duration → Bool :=
  exceeds settings.maxShipMilliseconds

def toJson (settings : LatencySettings) : Json := .object [
  ("max_read_latency_ms", .nat settings.maxReadMilliseconds),
  ("max_ship_latency_ms", .nat settings.maxShipMilliseconds)]

def ofJson? (base : LatencySettings) (json : Json) : Option LatencySettings := do
  let fields ← Json.fields? ["max_read_latency_ms", "max_ship_latency_ms"] json
  let word := Json.natBelow? UInt64.size
  let maxReadMilliseconds ← fields.defaulted "max_read_latency_ms" base.maxReadMilliseconds word
  let maxShipMilliseconds ← fields.defaulted "max_ship_latency_ms" base.maxShipMilliseconds word
  return { maxReadMilliseconds, maxShipMilliseconds }

end LatencySettings

/-! ## The database -/

structure StoreSettings where
  path : String
  /-- The database keeps a write-ahead journal. -/
  journal : Bool
  deriving Repr, DecidableEq

namespace StoreSettings

def standard : StoreSettings := ⟨"replication_queues.db", true⟩

def inMemory : StoreSettings := ⟨":memory:", false⟩

def isInMemory (settings : StoreSettings) : Bool := settings.path == inMemory.path

def toJson (settings : StoreSettings) : Json :=
  .object [("sqlite_path", .text settings.path), ("wal_mode", .bool settings.journal)]

def ofJson? (json : Json) : Option StoreSettings := do
  let fields ← Json.fields? ["sqlite_path", "wal_mode"] json
  let path ← fields.required "sqlite_path" Json.text?
  let journal ← fields.defaulted "wal_mode" true Json.bool?
  return { path, journal }

end StoreSettings

/-! ## All settings -/

structure Settings where
  source : SourceSettings
  failover : FailoverSettings
  stream : StreamSettings
  latency : LatencySettings
  deriving Repr, DecidableEq

namespace Settings

def standard : Settings := ⟨.standard, .standard, .standard, .standard⟩

def toJson (settings : Settings) : Json := .object [
  ("source", settings.source.toJson),
  ("failover", settings.failover.toJson),
  ("sink", settings.stream.toJson),
  ("slo", settings.latency.toJson)]

def ofJson? (base : Settings) (json : Json) : Option Settings := do
  let fields ← Json.fields? ["source", "failover", "sink", "slo"] json
  let source ← fields.defaulted "source" base.source (SourceSettings.ofJson? base.source)
  let failover ← fields.defaulted "failover" base.failover (FailoverSettings.ofJson? base.failover)
  let stream ← fields.defaulted "sink" base.stream (StreamSettings.ofJson? base.stream)
  let latency ← fields.defaulted "slo" base.latency (LatencySettings.ofJson? base.latency)
  return { source, failover, stream, latency }

end Settings

/-- The settings of one node. -/
structure NodeSettings where
  node : String
  settings : Settings
  store : StoreSettings
  deriving Repr, DecidableEq

namespace NodeSettings

def standard : NodeSettings := ⟨"local.dev.node.default", .standard, .standard⟩

/-- Settings for trying things out: a database in memory, small batches and short waits. -/
def brisk (node : String) : NodeSettings :=
  ⟨node, { Settings.standard with source := .brisk }, .inMemory⟩

def toJson (settings : NodeSettings) : Json := .object [
  ("local_node_id", .text settings.node),
  ("settings", settings.settings.toJson),
  ("store", settings.store.toJson)]

def ofJson? (json : Json) : Option NodeSettings := do
  let fields ← Json.fields? ["local_node_id", "settings", "store"] json
  let node ← fields.required "local_node_id" Json.text?
  let settings ← fields.defaulted "settings" Settings.standard (Settings.ofJson? .standard)
  let store ← fields.defaulted "store" StoreSettings.standard StoreSettings.ofJson?
  return { node, settings, store }

end NodeSettings

end LogShipping
