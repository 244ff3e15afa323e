import LogShipping.Batch
import LogShipping.Bulkhead
import LogShipping.Circuit
import LogShipping.RateLimiter
import LogShipping.Sink

/-!
# Workers

A worker ships one queue. It goes through phases, and whatever it does to the database or to its peer
is one step on the way from one phase to the next; between steps others may do the same. The workers of
one node share its settings, a limiter, a bulkhead and the circuits of its peers.
-/

namespace LogShipping

/-- What the workers of a node share. -/
structure Facilities where
  node : String
  settings : SourceSettings
  limiter : Option RateLimiter
  places : Bulkhead QueueKey
  circuits : PeerCircuits

namespace Facilities

/-- The facilities of a node. There are none if its bulkhead would have too many places. -/
def create? (node : String) (settings : SourceSettings) : Option Facilities :=
  (Bulkhead.create? settings.maxConcurrentShips).map fun places ↦
    { node, settings, places
      limiter := settings.rateLimit?.map fun (burst, rate) ↦ .create burst rate
      circuits := .create ⟨settings.circuitFailureThreshold, 1, settings.circuitReset⟩ }

end Facilities

/-- What a worker does, as others see it. -/
inductive WorkerState
  | starting
  | reading
  | shipping
  | backoff
  | disabled
  | stalled
  | stopped
  deriving Repr, DecidableEq

namespace WorkerState

def name : WorkerState → String
  | starting => "starting"
  | reading => "reading"
  | shipping => "shipping"
  | backoff => "backoff"
  | disabled => "disabled"
  | stalled => "stalled"
  | stopped => "stopped"

def isTerminal (state : WorkerState) : Bool := state == stopped

def all : List WorkerState := [starting, reading, shipping, backoff, disabled, stalled, stopped]

end WorkerState

/-- A stretch of the first file that was read: what has to be shipped of it, and how the queue goes on
afterwards. -/
structure Passage where
  shipment : Shipment
  file : FileRef
  start : Nat
  stop : Nat
  /-- The file ends here and will not grow. -/
  finishable : Bool
  /-- There was nothing more to read. -/
  exhausted : Bool
  deriving Repr, DecidableEq

namespace Passage

def target (passage : Passage) : LogPosition := ⟨passage.file.seq, passage.stop⟩

def madeProgress (passage : Passage) : Bool := passage.start < passage.stop

end Passage

namespace Worker

inductive Phase
  /-- About to look at the gate. -/
  | ready
  /-- The gate is shut. -/
  | gated
  /-- About to load the queue. -/
  | loading
  /-- About to read the first file from an offset on. -/
  | reading (file : FileRef) (offset : Nat) (hasNext : Bool)
  /-- About to drop a recovered queue that is empty. -/
  | dropping
  /-- About to try to ship. -/
  | shipping (passage : Passage)
  /-- Waiting for so many tokens. -/
  | awaitingTokens (passage : Passage) (count : Nat)
  /-- Waiting for a place in the bulkhead. -/
  | awaitingPlace (passage : Passage)
  /-- About to call the peer. -/
  | calling (passage : Passage)
  /-- Waiting for the peer's answer, until a point in time. -/
  | inFlight (passage : Passage) (number deadline : Nat)
  /-- Waiting to try again. -/
  | backingOff (passage : Passage) (wake : Nat)
  /-- About to move the queue's position. -/
  | advancing (passage : Passage)
  /-- About to take the first file off the queue. -/
  | finishing (file : FileRef)
  /-- Waiting for something new. -/
  | idle
  /-- Waiting after an error. -/
  | pausing (wake : Nat)
  /-- The log cannot be read. -/
  | stalled
  | stopped
  deriving Repr, DecidableEq

end Worker

namespace Passage

/-- Where the worker goes once the queue's position is behind the passage. -/
def next (passage : Passage) : Worker.Phase :=
  if passage.finishable then .finishing passage.file
  else if passage.exhausted then .idle
  else .ready

/-- Where the worker goes once nothing of the passage is left to be shipped. -/
def afterShipping (passage : Passage) : Worker.Phase :=
  if passage.madeProgress then .advancing passage else passage.next

end Passage

structure Worker where
  key : QueueKey
  sink : Sink
  /-- The number of the peer's circuit. -/
  circuit : Nat
  gate : Gate
  /-- The worker was told to stop. -/
  dismissed : Bool
  phase : Worker.Phase
  state : WorkerState
  /-- Failures in a row. -/
  failures : Nat
  /-- Entries acknowledged. -/
  edits : Nat
  hasShipped : Bool
  /-- The number of files on the queue when it was loaded last. -/
  files : Nat
  position : LogPosition

namespace Worker

def create (key : QueueKey) (sink : Sink) (circuit : Nat) (gate : Gate) : Worker where
  key := key
  sink := sink
  circuit := circuit
  gate := gate
  dismissed := false
  phase := .ready
  state := .starting
  failures := 0
  edits := 0
  hasShipped := false
  files := 0
  position := .zero

def isFinished (worker : Worker) : Bool := worker.phase == .stopped

/-- A worker that waits for something new looks again. -/
def wake (worker : Worker) : Worker :=
  if worker.phase = .idle then { worker with phase := .ready } else worker

end Worker

end LogShipping
