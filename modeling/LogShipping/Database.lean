import LogShipping.Queue.Tables

/-!
# The replication database

The database holds the peer table, the replicating switch and the queue tables. All nodes may share
one. While it cannot be reached every query fails.
-/

namespace LogShipping

/-- A peer cluster: its name, how to connect to it, and whether work for it is enabled. -/
structure Peer where
  id : String
  connection : String
  enabled : Bool
  deriving Repr, DecidableEq

structure Database where
  peers : List Peer
  replicating : Bool
  queues : QueueTables
  reachable : Bool
  deriving Repr, DecidableEq

namespace Database

/-- A new database: no peers, no queues, and replication switched on. -/
def empty : Database := ⟨[], true, .empty, true⟩

def unreachable : Error := .store "the database cannot be reached"

def peer? (database : Database) (id : String) : Option Peer := database.peers.find? (·.id == id)

/-- Reads from the queue tables. -/
def query {α : Type} (database : Database) (read : QueueTables → α) : Outcome α :=
  if database.reachable then .ok (read database.queues) else .error unreachable

/-- Runs one transaction on the queue tables. An error undoes what the transaction did. -/
def transact {α : Type} (database : Database) (run : QueueTables → Outcome (α × QueueTables)) :
    Outcome α × Database :=
  if database.reachable then
    match run database.queues with
    | .ok (answer, queues) => (.ok answer, { database with queues })
    | .error error => (.error error, database)
  else (.error unreachable, database)

end Database

end LogShipping
