import LogShipping.Failover.Pass
import LogShipping.Log.Directory
import LogShipping.Metrics
import LogShipping.Remote
import LogShipping.Schema
import LogShipping.Storage

/-!
# What the nodes share

The nodes of a cluster share one database with its peer registry, the membership, the schema, the
directory of log files and the remote clusters. Every change of them is announced on a feed that each
node follows at its own pace. The counts that are measured on the way are kept, the latest first.
-/

namespace LogShipping

structure World where
  database : Database
  registry : Registry
  membership : Membership
  schema : Schema
  directory : Directory
  /-- The storage of each node. -/
  storages : List (String × Storage)
  remotes : List Remote
  peerFeed : Feed PeerEvent
  queueFeed : Feed QueueEvent
  memberFeed : Feed MembershipEvent
  measures : List Measure
  now : Nat

namespace World

/-- A world without nodes and peers. -/
def create (schema : Schema) : World where
  database := .empty
  registry := ⟨[], true, 0⟩
  membership := .empty
  schema := schema
  directory := .empty
  storages := []
  remotes := []
  peerFeed := .empty 256
  queueFeed := .empty 1024
  memberFeed := .empty 256
  measures := []
  now := 0

def measure (world : World) (measure : Measure) : World :=
  { world with measures := measure :: world.measures }

/-! ## Storages and remote clusters -/

def storage (world : World) (node : String) : Storage := (world.storages.lookup node).getD (.create 1)

def setStorage (world : World) (node : String) (storage : Storage) : World :=
  { world with storages := (node, storage) :: world.storages.filter (·.1 != node) }

/-- The file a node writes to and its committed length. -/
def activeLog (world : World) (node : String) : Option (FileRef × Nat) := (world.storage node).active

def remote (world : World) (name : String) : Remote :=
  (world.remotes.find? (·.name == name)).getD (.create name)

def setRemote (world : World) (remote : Remote) : World :=
  { world with remotes := remote :: world.remotes.filter (·.name != remote.name) }

/-! ## Queues -/

/-- The world after an operation on the queues. -/
def settleQueues {α : Type} (world : World) (reply : QueueStore.Reply α) : Outcome α × World :=
  (reply.answer,
    { world with
      database := reply.database
      queueFeed := world.queueFeed.announceAll reply.events })

def createQueue (world : World) (key : QueueKey) (seed : Option (FileRef × Nat)) :
    Outcome Bool × World := world.settleQueues (QueueStore.create world.database key seed)

def enqueue (world : World) (key : QueueKey) (file : FileRef) : Outcome Unit × World :=
  world.settleQueues (QueueStore.enqueue world.database key file)

def advance (world : World) (key : QueueKey) (start : Nat) (target : LogPosition) :
    Outcome Unit × World := world.settleQueues (QueueStore.advance world.database key start target)

def finish (world : World) (key : QueueKey) (seq : UInt64) : Outcome Unit × World :=
  world.settleQueues (QueueStore.finish world.database key seq)

def dropQueue (world : World) (key : QueueKey) : Outcome Bool × World :=
  world.settleQueues (QueueStore.drop world.database key)

/-! ## Peers -/

def settlePeers {α : Type} (world : World) (reply : Registry.Reply α) : Outcome α × World :=
  (reply.answer,
    { world with
      database := reply.database
      registry := reply.registry
      peerFeed := world.peerFeed.announceAll reply.events })

/-- Counts a change of a peer that was made. -/
def countChange {α : Type} (action : String) : Outcome α × World → Outcome α × World
  | (.ok answer, world) => (.ok answer, world.measure (.peerChange action))
  | (.error error, world) => (.error error, world)

def addPeer (world : World) (id connection : String) : Outcome Peer × World :=
  countChange "added" (world.settlePeers (world.registry.addPeer world.database id connection))

def removePeer (world : World) (id : String) : Outcome Unit × World :=
  countChange "removed" (world.settlePeers (world.registry.removePeer world.database id))

def setPeerEnabled (world : World) (id : String) (enabled : Bool) : Outcome Unit × World :=
  countChange (if enabled then "enabled" else "disabled")
    (world.settlePeers (world.registry.setPeerEnabled world.database id enabled))

def setReplicating (world : World) (on : Bool) : Outcome Unit × World :=
  world.settlePeers (world.registry.setReplicating world.database on)

/-- Brings the registry's cache up to the database. -/
def refresh (world : World) : Outcome Nat × World :=
  world.settlePeers (world.registry.refresh world.database)

/-! ## Membership -/

def settleMembers (world : World) (change : Membership × List MembershipEvent) : World :=
  { world with
    membership := change.1
    memberFeed := world.memberFeed.announceAll change.2 }

def join (world : World) (node : String) : World := world.settleMembers (world.membership.join node)

def markDead (world : World) (node : String) : World :=
  world.settleMembers (world.membership.markDead node)

/-! ## Failover -/

/-- The peer of a queue that was handed over. -/
def transferMeasure? : QueueEvent → Option Measure
  | .transferred _ target => some (.failoverTransfer target.peer)
  | _ => none

/-- The world after a failover pass. -/
def settlePass (world : World) (finished : Failover.Pass.Finished) : World :=
  { world with
    database := finished.database
    membership := finished.membership
    queueFeed := world.queueFeed.announceAll finished.events
    measures := (finished.events.filterMap transferMeasure?).reverse ++ world.measures }

def handleNodeDeath (world : World) (node : String) : World :=
  world.settlePass (Failover.handleNodeDeath world.registry world.database world.membership node)

def sweep (world : World) : World :=
  world.settlePass (Failover.sweep world.registry world.database world.membership)

end World

end LogShipping
