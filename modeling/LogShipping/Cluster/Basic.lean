import LogShipping.Engine.Lifecycle

/-!
# Clusters

A cluster is a world and the engines of its nodes. This module holds what happens to a cluster from
outside: nodes come, fail and come back, logs are written, files are damaged, and so on. None of it lets
the engines work; that is done when the cluster settles.
-/

namespace LogShipping

structure Cluster where
  world : World
  /-- The engines in order of their nodes. -/
  engines : List Engine

namespace Cluster

def create (schema : Schema) : Cluster := ⟨.create schema, []⟩

def engine? (cluster : Cluster) (node : String) : Option Engine :=
  cluster.engines.find? (·.node == node)

/-- The first node whose engine is running. -/
def firstRunning? (cluster : Cluster) : Option String :=
  (cluster.engines.find? (·.isRunning)).map (·.node)

/-- Puts an engine in its place among the others. -/
def insert (engine : Engine) : List Engine → List Engine
  | [] => [engine]
  | other :: rest =>
    if engine.node < other.node then engine :: other :: rest
    else if engine.node = other.node then engine :: rest
    else other :: insert engine rest

/-- Lets something happen to the engine of a node. -/
def onNode? {α : Type} (cluster : Cluster) (node : String)
    (change : Engine.Turn → α × Engine.Turn) : Option (α × Cluster) :=
  (cluster.engine? node).map fun engine ↦
    let (answer, turn) := change ⟨cluster.world, engine⟩
    (answer, ⟨turn.world, insert turn.engine cluster.engines⟩)

/-! ## Nodes -/

/-- A new engine for a node, in the place of its old one. -/
def putEngine? (cluster : Cluster) (settings : NodeSettings) (join : Bool) : Option Cluster := do
  let engine ← Engine.create? settings
  let cluster :=
    match cluster.onNode? settings.node fun turn ↦ ((), turn.quiesce) with
    | some (_, cluster) => cluster
    | none => cluster
  let world := if join then cluster.world.join settings.node else cluster.world
  return ⟨world, insert engine cluster.engines⟩

/-- The storage of a node begins its next file, and answers its number. -/
def roll (cluster : Cluster) (node : String) (silent : Bool) : UInt64 × Cluster :=
  let (file, storage) := (cluster.world.storage node).roll node silent
  let world := cluster.world.setStorage node storage
  let directory := world.directory.write file.path []
  (file.seq, { cluster with world := { world with directory } })

/-- A node comes with a storage of its own. -/
def addNode? (cluster : Cluster) (settings : NodeSettings) (first : UInt64) (log join : Bool) :
    Option Cluster :=
  let cluster :=
    { cluster with world := cluster.world.setStorage settings.node (.create first) }
  let cluster := if log then (cluster.roll settings.node true).2 else cluster
  cluster.putEngine? settings join

def start? (cluster : Cluster) (node : String) : Option (Outcome Unit × Cluster) :=
  cluster.onNode? node (·.start)

/-- A node fails: its engine comes to a halt, and it is reported dead. -/
def kill? (cluster : Cluster) (node : String) : Option Cluster :=
  (cluster.onNode? node fun turn ↦ ((), turn.halt)).map fun (_, cluster) ↦
    { cluster with world := cluster.world.markDead node }

/-- A node joins and dies, so many times. -/
def flap (node : String) : (times : Nat) → World → World
  | 0, world => world
  | times + 1, world => flap node times ((world.join node).markDead node)

/-! ## Logs -/

/-- Readers may read a node's log up to a length. -/
def commit (cluster : Cluster) (node : String) (length : Nat) : Cluster :=
  let storage := (cluster.world.storage node).commit length
  { cluster with world := cluster.world.setStorage node storage }

/-- Appends to the file a node is writing, and answers its length. -/
def append? (cluster : Cluster) (node : String) (octets : Bytes) (publish : Bool) :
    Option (Nat × Cluster) := do
  let (file, _) ← cluster.world.activeLog node
  let directory := cluster.world.directory.append file.path octets
  let length := ((directory.content? file.path).getD []).length
  let cluster := { cluster with world := { cluster.world with directory } }
  return (length, if publish then cluster.commit node length else cluster)

/-- Gives a file another content. -/
def writeFile (cluster : Cluster) (name : String) (content : Bytes) : Cluster :=
  { cluster with world := { cluster.world with
    directory := cluster.world.directory.write name content } }

def eraseFile (cluster : Cluster) (name : String) : Cluster :=
  { cluster with world := { cluster.world with
    directory := cluster.world.directory.erase name } }

/-! ## Shared things -/

/-- Puts a queue into the store: created with its first file, the others enqueued after it. -/
def putQueue (cluster : Cluster) (key : QueueKey) (files : List FileRef) (offset : Nat) :
    Outcome Bool × Cluster :=
  let (answer, world) := cluster.world.createQueue key (files.head?.map (·, offset))
  let world := files.tail.foldl (fun world file ↦ (world.enqueue key file).2) world
  (answer, { cluster with world })

def setSchema (cluster : Cluster) (schema : Schema) : Cluster :=
  { cluster with world := { cluster.world with schema } }

def setReachable (cluster : Cluster) (reachable : Bool) : Cluster :=
  { cluster with world := { cluster.world with
    database := { cluster.world.database with reachable } } }

def setScript (cluster : Cluster) (name : String) (script : List Remote.Behaviour) : Cluster :=
  { cluster with world := cluster.world.setRemote { cluster.world.remote name with script } }

def release (cluster : Cluster) (name : String) (behaviour : Remote.Behaviour) : Cluster :=
  { cluster with world := cluster.world.setRemote ((cluster.world.remote name).release behaviour) }

end Cluster

end LogShipping
