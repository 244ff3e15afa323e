import LogShipping.Cluster.Basic

/-!
# Settling

The engines of a cluster work in rounds. In a round each takes the notices on its feeds and looks after
itself if it is time to, then the coordinators work, and then each worker works until it has to wait.
Rounds follow one another until nothing changes that others could see.

Where something waits for a time to come, time goes on, from one such time to the next. The cluster has
settled once nothing has changed for a while, in which every worker that waited for a time has gone on. It
does not settle if a worker has to wait too long for that. A settling cluster does not wait for engines to
look after themselves: they do so in every round.
-/

namespace LogShipping.Cluster

/-! ## Rounds -/

/-- Enough steps for a worker to go through all files there are, an octet at a time. -/
def workerSteps (world : World) : Nat :=
  64 + world.directory.files.foldr (fun file size ↦ file.2.length + size) 0 +
    8 * world.database.queues.files.length

/-- Enough turns to take all notices on a feed. -/
def feedTurns : Nat := 4096

def overEngines (cluster : Cluster) (change : Engine.Turn → Engine.Turn) : Cluster :=
  (cluster.engines.map (·.node)).foldl (fun cluster node ↦
    match cluster.onNode? node fun turn ↦ ((), change turn) with
    | some (_, cluster) => cluster
    | none => cluster) cluster

/-- Lets each worker of an engine work until it has to wait. -/
def work (turn : Engine.Turn) : Engine.Turn :=
  (turn.engine.sortedWorkers.map (·.key)).foldl
    (fun turn key ↦ turn.runWorker (workerSteps turn.world) key) turn

/-- One round. The engines look after themselves when it is time, or in any case. -/
def round (anyway : Bool) (cluster : Cluster) : Cluster :=
  let cluster := cluster.overEngines fun turn ↦ (turn.followFeeds feedTurns).lookAfter anyway
  let cluster := cluster.overEngines (·.followMembers feedTurns)
  cluster.overEngines work

/-! ## What others see -/

/-- What a worker's state is reported as: attempts to ship are not told from the waits in between. -/
def reported (state : WorkerState) : String :=
  match state with
  | .shipping | .backoff => "retrying"
  | state => state.name

def nodes (cluster : Cluster) : List (String × EngineState × List (QueueKey × String)) :=
  cluster.engines.map fun engine ↦
    (engine.node, engine.state, engine.workerStates.map fun (key, state) ↦ (key, reported state))

/-- What must not change any more once a cluster has settled. -/
structure View where
  queues : QueueTables
  reachable : Bool
  nodes : List (String × EngineState × List (QueueKey × WorkerState))
  peers : List CachedPeer
  replicating : Bool
  attempts : List (String × Nat × Nat)
  deriving DecidableEq

def view (cluster : Cluster) : View where
  queues := cluster.world.database.queues
  reachable := cluster.world.database.reachable
  nodes := cluster.engines.map fun engine ↦ (engine.node, engine.state, engine.workerStates)
  peers := cluster.world.registry.cached
  replicating := cluster.world.registry.replicating
  attempts := (cluster.world.remotes.mergeSort fun x y ↦ x.name ≤ y.name).map fun remote ↦
    (remote.name, remote.attempts, remote.accepted.length)

/-- Rounds until nothing changes, at most so many. -/
def rounds (anyway : Bool) : (turns : Nat) → Cluster → Cluster
  | 0, cluster => cluster
  | turns + 1, cluster =>
    let next := cluster.round anyway
    if next.view = cluster.view then next else rounds anyway turns next

def maxRounds : Nat := 256

/-! ## Time -/

/-- When a worker that waits for a time goes on. A call that its peer holds open is not waited for. -/
def workerTime? (world : World) (facilities : Facilities) (worker : Worker) : Option Nat :=
  match worker.phase with
  | .backingOff _ wake | .pausing wake => some wake
  | .awaitingTokens _ (_ + 1) => facilities.limiter.map (·.ready world.now)
  | .inFlight _ number deadline =>
    match worker.sink with
    | .remote name => if (world.remote name).held.contains number then none else some deadline
    | .stream _ => some deadline
  | _ => none

def coordinatorTime? (engine : Engine) : Option Nat :=
  match engine.coordinator with
  | .claiming _ _ time => some time
  | _ => none

/-- When an engine looks after itself next. -/
def pollTime? (engine : Engine) : Option Nat := engine.places.map fun _ ↦ engine.nextPoll

/-- The times that workers wait for. -/
def workerTimes (cluster : Cluster) : List Nat :=
  cluster.engines.flatMap fun engine ↦
    engine.workers.filterMap (workerTime? cluster.world engine.facilities)

/-- The times that workers and coordinators wait for. -/
def times (cluster : Cluster) : List Nat :=
  cluster.engines.filterMap coordinatorTime? ++ cluster.workerTimes

def earliest : List Nat → Option Nat
  | [] => none
  | time :: times => some (times.foldl min time)

def atTime (cluster : Cluster) (time : Nat) : Cluster :=
  { cluster with world := { cluster.world with now := max time cluster.world.now } }

/-- How long nothing must change before the cluster counts as settled. -/
def quiet : Duration := 8 * Duration.millisecond

/-- How long a settling may take. -/
def patience : Duration := Duration.ofSeconds 60

/-- When the cluster has settled, if nothing changes from now on. -/
def calm (cluster : Cluster) : Nat := cluster.workerTimes.foldl max (cluster.world.now + quiet)

/-- Lets time go on until the cluster has settled, at most up to a point and at most so often. -/
def settleUntil (limit : Nat) : (turns calm : Nat) → Cluster → Option Cluster
  | 0, _, _ => none
  | turns + 1, calm, cluster =>
    match (earliest cluster.times).filter (· ≤ calm) with
    | none => some cluster
    | some time =>
      if limit < time then none
      else
        let next := (cluster.atTime time).rounds true maxRounds
        settleUntil limit turns (if next.view = cluster.view then calm else next.calm) next

def maxTimes : Nat := 4096

/-- The cluster once it has settled, if it does. -/
def settle? (cluster : Cluster) : Option Cluster :=
  let cluster := cluster.rounds true maxRounds
  cluster.settleUntil (cluster.world.now + patience) maxTimes cluster.calm

/-- Lets time go on up to a point, at most so often. -/
def waitUntil (limit : Nat) : (turns : Nat) → Cluster → Cluster
  | 0, cluster => (cluster.atTime limit).rounds false maxRounds
  | turns + 1, cluster =>
    let polls := cluster.engines.filterMap pollTime?
    match earliest ((cluster.times ++ polls).filter (· ≤ limit)) with
    | none => (cluster.atTime limit).rounds false maxRounds
    | some time => waitUntil limit turns ((cluster.atTime time).rounds false maxRounds)

/-- Lets a while pass. -/
def wait (cluster : Cluster) (duration : Duration) : Cluster :=
  (cluster.rounds false maxRounds).waitUntil (cluster.world.now + duration) maxTimes

end LogShipping.Cluster
