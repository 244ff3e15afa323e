import LogShipping.Engine.Basic

/-!
# Following the cluster

A running engine takes notices off its feeds one by one. Where it fell behind on a feed it brings
itself up to date instead. From time to time it does so anyway, since notices alone do not tell of
changes that were made while it was down. Its coordinator follows the membership in the same way.
-/

namespace LogShipping.Engine.Turn

/-! ## Notices -/

def onPeerEvent (turn : Turn) : PeerEvent → Turn
  | .added peer =>
    if turn.world.registry.contains peer.id then (turn.ensureQueue peer.id).2 else turn
  | .removed id => if turn.world.registry.contains id then turn else turn.removePeerQueues id
  | .stateChanged .. | .replicating _ => turn

def onQueueEvent (turn : Turn) : QueueEvent → Turn
  | .transferred _ target => if target.owner = turn.engine.node then turn.spawn target else turn
  | .created key => if key.owner = turn.engine.node then turn.spawn key else turn
  | .dropped key =>
    if key.owner = turn.engine.node then
      match turn.engine.worker? key with
      | some worker => turn.dismiss worker
      | none => turn
    else turn

def wakeWorkers (turn : Turn) : Turn := { turn with engine := turn.engine.wakeWorkers }

/-- The queues learn of a new file before the workers look again. -/
def onLogEvent (turn : Turn) : LogEvent → Turn
  | .rolled file => (turn.enqueueAll file).wakeWorkers
  | .appended .. => turn.wakeWorkers

/-! ## Feeds -/

def setPlaces (turn : Turn) (places : Places) : Turn :=
  { turn with engine := { turn.engine with places := some places } }

/-- Takes the next notice off the feed of peers, if there is one. -/
def nextPeerEvent? (turn : Turn) (places : Places) : Option Turn :=
  match turn.world.peerFeed.next places.peers with
  | .nothing => none
  | .notice event place => some ((turn.setPlaces { places with peers := place }).onPeerEvent event)
  | .behind place => some (turn.setPlaces { places with peers := place }).sync.2

/-- Takes the next notice off the feed of queues, if there is one. -/
def nextQueueEvent? (turn : Turn) (places : Places) : Option Turn :=
  match turn.world.queueFeed.next places.queues with
  | .nothing => none
  | .notice event place => some ((turn.setPlaces { places with queues := place }).onQueueEvent event)
  | .behind place => some (turn.setPlaces { places with queues := place }).adoptOwned.2

/-- Takes the next notice off the feed of the node's log, if there is one. -/
def nextLogEvent? (turn : Turn) (places : Places) : Option Turn :=
  match (turn.world.storage turn.engine.node).feed.next places.log with
  | .nothing => none
  | .notice event place => some ((turn.setPlaces { places with log := place }).onLogEvent event)
  | .behind place => some (turn.setPlaces { places with log := place }).reconcile.wakeWorkers

/-- Takes one notice, if there is any. -/
def nextEvent? (turn : Turn) : Option Turn :=
  match turn.engine.places with
  | none => none
  | some places =>
    (turn.nextPeerEvent? places).or
      ((turn.nextQueueEvent? places).or (turn.nextLogEvent? places))

/-- Takes notices until there is none, at most so many. -/
def followFeeds : (notices : Nat) → Turn → Turn
  | 0, turn => turn
  | notices + 1, turn =>
    match turn.nextEvent? with
    | none => turn
    | some turn => followFeeds notices turn

/-- Looks after the engine: takes in what changed in the database, forgets finished workers, and makes
queues and workers agree with the registry and the log. -/
def poll (turn : Turn) : Turn :=
  let nextPoll := turn.world.now + turn.engine.settings.settings.source.pollEvery
  let turn : Turn := ⟨turn.world.refresh.2, { turn.engine.reap with nextPoll }⟩
  turn.sync.2.reconcile

/-- Looks after the engine if it is running and the time has come, or in any case. Waiting workers look
again too. -/
def lookAfter (turn : Turn) (anyway : Bool) : Turn :=
  if anyway || turn.engine.nextPoll ≤ turn.world.now then
    (if turn.engine.places.isSome then turn.poll else turn).wakeWorkers
  else turn

/-! ## Failover -/

def setCoordinator (turn : Turn) (coordinator : Coordinator) : Turn :=
  { turn with engine := { turn.engine with coordinator } }

/-- Takes over the queues of a dead node. -/
def claim (turn : Turn) (node : String) : Turn :=
  { turn with world := turn.world.handleNodeDeath node }

def sweep (turn : Turn) : Turn := { turn with world := turn.world.sweep }

/-- The coordinator's next step, if there is something for it to do. -/
def coordinate? (turn : Turn) : Option Turn :=
  match turn.engine.coordinator with
  | .off => none
  | .fresh => some (turn.setCoordinator (.following turn.world.memberFeed.place)).sweep
  | .claiming place node time =>
    if time ≤ turn.world.now then some ((turn.setCoordinator (.following place)).claim node)
    else none
  | .following place =>
    match turn.world.memberFeed.next place with
    | .nothing => none
    | .behind place => some (turn.setCoordinator (.following place)).sweep
    | .notice (.joined _) place => some (turn.setCoordinator (.following place)).sweep
    | .notice (.died node) place =>
      if node = turn.engine.node then some (turn.setCoordinator (.following place))
      else
        let delay := turn.engine.settings.settings.failover.delay
        some (turn.setCoordinator (.claiming place node (turn.world.now + delay)))

/-- Lets the coordinator work until it has to wait. -/
def followMembers : (steps : Nat) → Turn → Turn
  | 0, turn => turn
  | steps + 1, turn =>
    match turn.coordinate? with
    | none => turn
    | some turn => followMembers steps turn

end LogShipping.Engine.Turn
