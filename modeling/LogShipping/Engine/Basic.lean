import LogShipping.Settings
import LogShipping.Worker.Step

/-!
# Engines

An engine runs replication on one node. It holds the workers of the node's queues, the sinks they ship
to, and what they share. While it is running it follows the feeds of the cluster, looks after itself
from time to time, and takes part in failover.
-/

namespace LogShipping

inductive EngineState
  | created
  | starting
  | running
  | shuttingDown
  | stopped
  | failed
  deriving Repr, DecidableEq

namespace EngineState

def name : EngineState → String
  | created => "Created"
  | starting => "Starting"
  | running => "Running"
  | shuttingDown => "ShuttingDown"
  | stopped => "Stopped"
  | failed => "Failed"

def all : List EngineState := [created, starting, running, shuttingDown, stopped, failed]

end EngineState

namespace Engine

/-- How far an engine has followed each feed. -/
structure Places where
  peers : Nat
  queues : Nat
  log : Nat
  deriving Repr, DecidableEq

/-- The part of an engine that takes over the queues of dead nodes. -/
inductive Coordinator
  | off
  /-- About to look for queues without a live owner. -/
  | fresh
  /-- Follows the membership. -/
  | following (place : Nat)
  /-- Lets a while pass before it takes over a dead node's queues. -/
  | claiming (place : Nat) (node : String) (time : Nat)
  deriving Repr, DecidableEq

end Engine

structure Engine where
  settings : NodeSettings
  state : EngineState
  facilities : Facilities
  workers : List Worker
  /-- The sink of each peer, once it is connected. -/
  sinks : List (String × Sink)
  /-- Where the engine stands in the feeds, while it follows them. -/
  places : Option Engine.Places
  /-- When the engine looks after itself next. -/
  nextPoll : Nat
  coordinator : Engine.Coordinator

namespace Engine

/-- An engine that has not been started. There is none if its bulkhead would have too many places. -/
def create? (settings : NodeSettings) : Option Engine :=
  (Facilities.create? settings.node settings.settings.source).map fun facilities ↦
    { settings, facilities
      state := .created
      workers := []
      sinks := []
      places := none
      nextPoll := 0
      coordinator := .off }

def node (engine : Engine) : String := engine.settings.node

def isRunning (engine : Engine) : Bool := engine.state == .running

def worker? (engine : Engine) (key : QueueKey) : Option Worker :=
  engine.workers.find? (·.key == key)

def hasLiveWorker (engine : Engine) (key : QueueKey) : Bool :=
  (engine.worker? key).any (!·.isFinished)

/-- The workers in order of their queues. -/
def sortedWorkers (engine : Engine) : List Worker :=
  engine.workers.mergeSort fun x y ↦ x.key.order y.key != .gt

/-- The queues of the workers that have not finished, with what these do. -/
def workerStates (engine : Engine) : List (QueueKey × WorkerState) :=
  (engine.sortedWorkers.filter (!·.isFinished)).map fun worker ↦ (worker.key, worker.state)

/-- The engine with the worker of a queue replaced, or added. -/
def putWorker (engine : Engine) (worker : Worker) : Engine :=
  { engine with workers := engine.workers.filter (·.key != worker.key) ++ [worker] }

def removeWorker (engine : Engine) (key : QueueKey) : Engine :=
  { engine with workers := engine.workers.filter (·.key != key) }

/-- The workers that wait for something new look again. -/
def wakeWorkers (engine : Engine) : Engine :=
  { engine with workers := engine.workers.map Worker.wake }

/-- The workers that have finished are forgotten. -/
def reap (engine : Engine) : Engine :=
  { engine with workers := engine.workers.filter (!·.isFinished) }

/-! ## Spawning and stopping workers -/

/-- An engine in the world it works in. -/
structure Turn where
  world : World
  engine : Engine

namespace Turn

/-- The sink for a peer: the one it was connected to before, or a new one. -/
def sinkFor (turn : Turn) (peer : Peer) : Outcome Sink × Turn :=
  match turn.engine.sinks.lookup peer.id with
  | some sink => (.ok sink, turn)
  | none =>
    let connected := Sink.connect turn.engine.settings.settings peer
    let turn := { turn with
      world := turn.world.measure (.peerConnection peer.id (connected matches .ok _)) }
    match connected with
    | .ok sink =>
      (.ok sink, { turn with
        engine := { turn.engine with sinks := (peer.id, sink) :: turn.engine.sinks } })
    | .error error => (.error error, turn)

/-- Starts a worker for a queue, unless one is working on it, the peer is not known, or it cannot be
connected. -/
def spawn (turn : Turn) (key : QueueKey) : Turn :=
  match turn.world.registry.peer? key.peer, turn.world.registry.gate? key.peer with
  | some peer, some gate =>
    if turn.engine.hasLiveWorker key then turn
    else
      match turn.sinkFor peer with
      | (.error _, turn) => { turn with engine := turn.engine.removeWorker key }
      | (.ok sink, turn) =>
        let (entry, circuits) := turn.engine.facilities.circuits.ofPeer peer.id
        let engine := { turn.engine with facilities := { turn.engine.facilities with circuits } }
        { turn with engine := engine.putWorker (Worker.create key sink entry.number gate) }
  | _, _ => turn

/-- Stops a worker, and forgets it. -/
def dismiss (turn : Turn) (worker : Worker) : Turn :=
  let stopped := Worker.Turn.stop ⟨turn.world, turn.engine.facilities, worker⟩
  { world := stopped.world
    engine := { turn.engine with facilities := stopped.facilities }.removeWorker worker.key }

def dismissAll (turn : Turn) (workers : List Worker) : Turn := workers.foldl dismiss turn

/-- Lets the worker of a queue work until it has to wait. -/
def runWorker (turn : Turn) (steps : Nat) (key : QueueKey) : Turn :=
  match turn.engine.worker? key with
  | none => turn
  | some worker =>
    let after := Worker.run steps ⟨turn.world, turn.engine.facilities, worker⟩
    { world := after.world
      engine := { turn.engine with
        facilities := after.facilities
        workers := turn.engine.workers.map fun old ↦
          if old.key = key then after.worker else old } }

/-! ## Queues -/

/-- Creates the node's own queue for a peer, from the committed end of the log on, and starts its
worker. -/
def ensureQueue (turn : Turn) (peer : String) : Outcome Unit × Turn :=
  let key := QueueKey.own turn.engine.node peer
  match turn.world.createQueue key (turn.world.activeLog turn.engine.node) with
  | (.error error, world) => (.error error, { turn with world })
  | (.ok _, world) => (.ok (), { turn with world }.spawn key)

/-- Creates the queues that are missing, one peer after the other, until one cannot be created. -/
def ensureQueues (turn : Turn) : List Peer → Outcome Unit × Turn
  | [] => (.ok (), turn)
  | peer :: peers =>
    if turn.engine.hasLiveWorker (.own turn.engine.node peer.id) then turn.ensureQueues peers
    else
      match turn.ensureQueue peer.id with
      | (.ok _, turn) => turn.ensureQueues peers
      | (.error error, turn) => (.error error, turn)

/-- Takes up the given queues of the node: starts their workers, or drops those whose peers are not
known. -/
def adopt (turn : Turn) : List QueueKey → Outcome Unit × Turn
  | [] => (.ok (), turn)
  | key :: keys =>
    if turn.world.registry.contains key.peer then (turn.spawn key).adopt keys
    else
      match turn.world.dropQueue key with
      | (.ok _, world) => { turn with world }.adopt keys
      | (.error error, world) => (.error error, { turn with world })

/-- Takes up every queue the node owns. -/
def adoptOwned (turn : Turn) : Outcome Unit × Turn :=
  match turn.world.database.query (·.keysOwnedBy turn.engine.node) with
  | .error error => (.error error, turn)
  | .ok keys => turn.adopt keys

/-- Makes the queues and the workers agree with the registry. -/
def sync (turn : Turn) : Outcome Unit × Turn :=
  match turn.ensureQueues turn.world.registry.peers with
  | (.error error, turn) => (.error error, turn)
  | (.ok _, turn) => turn.adoptOwned

/-- Lists a file on every queue of the node's own log. A queue that refuses it stays as it is. -/
def enqueueAll (turn : Turn) (file : FileRef) : Turn :=
  match turn.world.database.query (·.keysOwnedBy turn.engine.node) with
  | .error _ => turn
  | .ok keys =>
    { turn with
      world := (keys.filter (!·.isRecovered)).foldl (fun world key ↦ (world.enqueue key file).2)
        turn.world }

/-- Lists the file being written on every queue of the node's own log. -/
def reconcile (turn : Turn) : Turn :=
  match turn.world.activeLog turn.engine.node with
  | none => turn
  | some (file, _) => turn.enqueueAll file

/-- Ends the work for a peer: its workers, its circuit and its sink. Unless it is registered again, the
node's queues for it are dropped. -/
def removePeerQueues (turn : Turn) (peer : String) : Turn :=
  let turn := turn.dismissAll (turn.engine.workers.filter (·.key.peer == peer))
  let facilities := { turn.engine.facilities with
    circuits := turn.engine.facilities.circuits.remove peer }
  let turn := { turn with
    engine := { turn.engine with facilities, sinks := turn.engine.sinks.filter (·.1 != peer) } }
  if turn.world.registry.contains peer then turn
  else
    match turn.world.database.query (·.keysOwnedBy turn.engine.node) with
    | .error _ => turn
    | .ok keys =>
      { turn with
        world := (keys.filter (·.peer == peer)).foldl (fun world key ↦ (world.dropQueue key).2)
          turn.world }

end Turn

end Engine

end LogShipping
