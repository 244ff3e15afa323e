import LogShipping.Engine.Events

/-!
# Starting and stopping engines

An engine is started once. It can be shut down, which keeps its queues for the next engine of the node;
decommissioned, which drops those with nothing left to ship; or it comes to a halt where it stands.
Peers are added and removed through an engine, which sees to its own queues for them at once.
-/

namespace LogShipping.Engine

/-- The queues that a decommissioned engine dropped, and those that still hold something to ship. -/
structure Farewell where
  dropped : List QueueKey
  retained : List QueueKey
  deriving Repr, DecidableEq

/-- The state of a queue's worker, for those who watch over it. -/
structure QueueHealth where
  key : QueueKey
  state : WorkerState
  files : Nat
  position : LogPosition
  failures : Nat
  edits : Nat
  hasShipped : Bool
  deriving Repr, DecidableEq

structure Health where
  state : EngineState
  replicating : Bool
  ready : Bool
  healthy : Bool
  peers : Nat
  openCircuits : List String
  queues : List QueueHealth
  deriving Repr, DecidableEq

namespace Turn

def setState (turn : Turn) (state : EngineState) : Turn :=
  { turn with
    engine := { turn.engine with state }
    world := turn.world.measure (.engineState state.name) }

/-! ## Starting -/

/-- Follows the feeds from now on. -/
def beginFollowing (turn : Turn) : Turn :=
  turn.setPlaces
    ⟨turn.world.peerFeed.place, turn.world.queueFeed.place,
      (turn.world.storage turn.engine.node).feed.place⟩

def start (turn : Turn) : Outcome Unit × Turn :=
  if turn.engine.state ≠ .created then
    (.error (.invalidState EngineState.created.name turn.engine.state.name), turn)
  else
    let turn := turn.setState .starting
    let following := turn.beginFollowing
    match turn.sync with
    | (.error error, turn) => (.error error, turn.setState .failed)
    | (.ok _, turn) =>
      let engine := { turn.engine with
        places := following.engine.places
        coordinator := if turn.engine.settings.settings.failover.enabled then .fresh else .off }
      (.ok (), { turn with engine }.setState .running)

/-! ## Stopping -/

/-- Ends all that the engine does. -/
def quiesce (turn : Turn) : Turn :=
  let turn := turn.dismissAll turn.engine.workers
  { turn with engine := { turn.engine with places := none, coordinator := .off } }

def shutdown (turn : Turn) : Turn := ((turn.setState .shuttingDown).quiesce).setState .stopped

/-- The engine comes to a halt, as when its node fails. -/
def halt (turn : Turn) : Turn := turn.quiesce.setState .stopped

/-- A queue still holds something to ship. -/
def hasBacklog (turn : Turn) (queue : Queue) : Bool :=
  if queue.hasNext then true
  else
    match queue.head? with
    | none => false
    | some file =>
      let length :=
        match turn.world.directory.open? file.path with
        | .ok (.file content) => content.length
        | _ => 0
      let stop :=
        match turn.world.activeLog turn.engine.node with
        | some (active, committed) =>
          if active.seq = file.seq && !queue.key.isRecovered then committed else length
        | none => length
      queue.offset < stop

/-- Drops those of the given queues that hold nothing to ship any more. -/
def dropDrained (turn : Turn) (farewell : Farewell) : List QueueKey → Outcome Farewell × Turn
  | [] => (.ok farewell, turn)
  | key :: keys =>
    match turn.world.database.query (·.get? key) with
    | .error error => (.error error, turn)
    | .ok none => turn.dropDrained farewell keys
    | .ok (some queue) =>
      if turn.hasBacklog queue then
        turn.dropDrained { farewell with retained := farewell.retained ++ [key] } keys
      else
        match turn.world.dropQueue key with
        | (.error error, world) => (.error error, { turn with world })
        | (.ok dropped, world) =>
          let farewell :=
            if dropped then { farewell with dropped := farewell.dropped ++ [key] } else farewell
          { turn with world }.dropDrained farewell keys

/-- Takes the node out of replication for good. -/
def decommission (turn : Turn) : Outcome Farewell × Turn :=
  let turn := (turn.setState .shuttingDown).quiesce
  match turn.world.database.query (·.keysOwnedBy turn.engine.node) with
  | .error error => (.error error, turn)
  | .ok keys =>
    match turn.dropDrained ⟨[], []⟩ keys with
    | (.error error, turn) => (.error error, turn)
    | (.ok farewell, turn) => (.ok farewell, turn.setState .stopped)

/-! ## Peers -/

def addPeer (turn : Turn) (id connection : String) : Outcome Peer × Turn :=
  match turn.world.addPeer id connection with
  | (.error error, world) => (.error error, { turn with world })
  | (.ok peer, world) =>
    let turn := { turn with world }
    if turn.engine.isRunning then
      match turn.ensureQueue id with
      | (.ok _, turn) => (.ok peer, turn)
      | (.error error, turn) => (.error error, turn)
    else (.ok peer, turn)

def removePeer (turn : Turn) (id : String) : Outcome Unit × Turn :=
  match turn.world.removePeer id with
  | (.error error, world) => (.error error, { turn with world })
  | (.ok _, world) =>
    let turn := { turn with world }
    (.ok (), if turn.engine.isRunning then turn.removePeerQueues id else turn)

/-! ## Health -/

def queueHealth (worker : Worker) : QueueHealth :=
  ⟨worker.key, worker.state, worker.files, worker.position, worker.failures, worker.edits,
    worker.hasShipped⟩

def health (turn : Turn) : Health :=
  let queues := turn.engine.sortedWorkers.map queueHealth
  let ready := turn.engine.isRunning
  let threshold := turn.engine.facilities.settings.circuitFailureThreshold
  { state := turn.engine.state
    replicating := turn.world.registry.replicating
    ready
    healthy := ready &&
      queues.all fun queue ↦ queue.state != .stalled && queue.failures < threshold
    peers := turn.world.registry.peers.length
    openCircuits := turn.engine.facilities.circuits.openPeers
    queues }

end Turn

end LogShipping.Engine
