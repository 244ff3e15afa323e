import LogShipping.Failover.Ranking
import LogShipping.Peer.Registry
import LogShipping.Queue.Store

/-!
# Failover passes

When a node has died, a coordinator goes through the queues it owned. Queues of peers that are no
longer registered are dropped; every other one is offered to the nodes that may take it, best first.
A pass is a machine whose steps each make at most one call to the database, so that passes of several
coordinators, and whatever else uses the database, can be interleaved step by step.
-/

namespace LogShipping.Failover

/-- What a pass did: the queues it moved, with their old and new keys, those that no node could take,
and those it dropped. -/
structure Report where
  transferred : List (QueueKey × QueueKey)
  orphaned : List QueueKey
  dropped : List QueueKey
  deriving Repr, DecidableEq

namespace Report

def empty : Report := ⟨[], [], []⟩

def append (x y : Report) : Report :=
  ⟨x.transferred ++ y.transferred, x.orphaned ++ y.orphaned, x.dropped ++ y.dropped⟩

def move (report : Report) (key target : QueueKey) : Report :=
  { report with transferred := report.transferred ++ [(key, target)] }

def orphan (report : Report) (key : QueueKey) : Report :=
  { report with orphaned := report.orphaned ++ [key] }

def drop (report : Report) (key : QueueKey) : Report :=
  { report with dropped := report.dropped ++ [key] }

end Report

/-- What a pass knows of the cluster. It is looked up once and then kept up with the pass's own moves
only. -/
structure Survey where
  live : List String
  load : List (String × Nat)
  /-- The queues there are. -/
  held : List QueueKey
  deriving Repr, DecidableEq

namespace Survey

/-- The owners of the queues of a key's slot. -/
def holders (survey : Survey) (key : QueueKey) : List String :=
  (survey.held.filter (·.sameSlot key)).map (·.owner)

def candidates (survey : Survey) (key : QueueKey) : List String :=
  rankTargets survey.live survey.load (survey.holders key) key

/-- One more queue on a node. -/
def addLoad (load : List (String × Nat)) (node : String) : List (String × Nat) :=
  match load.lookup node with
  | none => load ++ [(node, 1)]
  | some _ => load.map fun row ↦ if row.1 = node then (node, row.2 + 1) else row

/-- One queue less on a node that is listed. -/
def takeLoad (load : List (String × Nat)) (node : String) : List (String × Nat) :=
  load.map fun row ↦ if row.1 = node then (node, row.2 - 1) else row

/-- The survey after a queue was moved. -/
def move (survey : Survey) (key target : QueueKey) : Survey :=
  let load := if target.isRecovered then addLoad survey.load target.owner else survey.load
  { survey with
    load := takeLoad load key.owner
    held :=
      if survey.held.any (·.sameSlot key) then target :: survey.held.filter (· != key)
      else survey.held }

end Survey

/-- Where a pass stands. -/
inductive Pass
  /-- About to ask whether the node is alive. -/
  | asking (node : String)
  /-- About to list the queues of the node. -/
  | gathering (node : String)
  /-- About to count the queues of each owner. -/
  | counting (queues : List QueueKey)
  /-- About to list all queues. -/
  | listing (queues : List QueueKey) (live : List String) (load : List (String × Nat))
  /-- About to turn to the next queue. -/
  | choosing (survey : Survey) (queues : List QueueKey) (report : Report)
  /-- About to offer a queue to the next of the nodes left. -/
  | offering (survey : Survey) (key : QueueKey) (nodes : List String) (queues : List QueueKey)
      (report : Report)
  | done (report : Report)
  | failed (error : Error)

namespace Pass

/-- A pass, and what it shares with everyone else. -/
structure Turn where
  pass : Pass
  database : Database
  membership : Membership
  events : List QueueEvent

/-- The pass after its next step. The registry is the coordinator's own cache. -/
def step (registry : Registry) (database : Database) (membership : Membership) : Pass → Turn
  | asking node =>
    let (alive, membership) := membership.isAlive node
    ⟨if alive then failed (.sourceStillAlive node) else gathering node, database, membership, []⟩
  | gathering node =>
    match database.query (·.keysOwnedBy node) with
    | .error error => ⟨failed error, database, membership, []⟩
    | .ok [] => ⟨done .empty, database, membership, []⟩
    | .ok queues => ⟨counting queues, database, membership, []⟩
  | counting queues =>
    match database.query (·.counts) with
    | .error error => ⟨failed error, database, membership, []⟩
    | .ok load => ⟨listing queues membership.live load, database, membership, []⟩
  | listing queues live load =>
    match database.query (·.keys) with
    | .error error => ⟨failed error, database, membership, []⟩
    | .ok held => ⟨choosing ⟨live, load, held⟩ queues .empty, database, membership, []⟩
  | choosing _ [] report => ⟨done report, database, membership, []⟩
  | choosing survey (key :: queues) report =>
    if registry.contains key.peer then
      ⟨offering survey key (survey.candidates key) queues report, database, membership, []⟩
    else
      let reply := QueueStore.drop database key
      match reply.answer with
      | .error error => ⟨failed error, reply.database, membership, reply.events⟩
      | .ok dropped =>
        let report := if dropped then report.drop key else report
        ⟨choosing survey queues report, reply.database, membership, reply.events⟩
  | offering survey key [] queues report =>
    ⟨choosing survey queues (report.orphan key), database, membership, []⟩
  | offering survey key (node :: nodes) queues report =>
    let (reply, membership) := QueueStore.transfer database membership key node
    let pass := match reply.answer with
      | .ok target => choosing (survey.move key target) queues (report.move key target)
      | .error (.staleOwnership ..) => choosing survey queues report
      | .error (.sourceStillAlive ..) => choosing survey queues report
      | .error (.internal ..) => offering survey key nodes queues report
      | .error error => failed error
    ⟨pass, reply.database, membership, reply.events⟩
  | done report => ⟨done report, database, membership, []⟩
  | failed error => ⟨failed error, database, membership, []⟩

/-- What a pass that has come to its end answers. -/
def result? : Pass → Option (Outcome Report)
  | done report => some (.ok report)
  | failed error => some (.error error)
  | _ => none

/-- The answer of a pass that ran to its end, and what it left behind. -/
structure Finished where
  answer : Outcome Report
  database : Database
  membership : Membership
  events : List QueueEvent

/-- Runs a pass with nobody else at the database. -/
def runFor (registry : Registry) : (steps : Nat) → Turn → Finished
  | 0, turn => ⟨.error (.internal "failover pass unfinished"), turn.database, turn.membership, turn.events⟩
  | steps + 1, turn =>
    match turn.pass.result? with
    | some answer => ⟨answer, turn.database, turn.membership, turn.events⟩
    | none =>
      let next := turn.pass.step registry turn.database turn.membership
      runFor registry steps { next with events := turn.events ++ next.events }

/-- Enough steps for a pass: a few to begin with, and for every queue one to turn to it, one for each
node that may be offered it, and one to give up. -/
def stepsFor (database : Database) (membership : Membership) : Nat :=
  6 + database.queues.offsets.length * (membership.live.length + 3)

def run (registry : Registry) (database : Database) (membership : Membership) (pass : Pass) :
    Finished :=
  runFor registry (stepsFor database membership) ⟨pass, database, membership, []⟩

end Pass

/-- Goes through the queues of a dead node. -/
def handleNodeDeath (registry : Registry) (database : Database) (membership : Membership)
    (node : String) : Pass.Finished :=
  (Pass.asking node).run registry database membership

/-! ## Sweeping -/

/-- The keys whose owners are reported dead, each owner asked about once per key. -/
def deadKeys (membership : Membership) : List QueueKey → List QueueKey × Membership
  | [] => ([], membership)
  | key :: keys =>
    let (alive, membership) := membership.isAlive key.owner
    let (dead, membership) := deadKeys membership keys
    (if alive then dead else key :: dead, membership)

/-- The keys of each owner together, owners in the order they are met. -/
def byOwner (keys : List QueueKey) : List (List QueueKey) :=
  (keys.map (·.owner)).eraseDups.map fun owner ↦ keys.filter (·.owner == owner)

/-- Reassigns group after group, until one fails. -/
def reassignAll (registry : Registry) (finished : Pass.Finished) :
    List (List QueueKey) → Pass.Finished
  | [] => finished
  | queues :: groups =>
    match finished.answer with
    | .error _ => finished
    | .ok report =>
      let next := (Pass.counting queues).run registry finished.database finished.membership
      reassignAll registry
        ⟨next.answer.map report.append, next.database, next.membership,
          finished.events ++ next.events⟩ groups

/-- Goes through all queues whose owners are not alive. -/
def sweep (registry : Registry) (database : Database) (membership : Membership) : Pass.Finished :=
  match database.query (·.keys) with
  | .error error => ⟨.error error, database, membership, []⟩
  | .ok keys =>
    let (dead, membership) := deadKeys membership keys
    reassignAll registry ⟨.ok .empty, database, membership, []⟩ (byOwner dead)

end LogShipping.Failover
