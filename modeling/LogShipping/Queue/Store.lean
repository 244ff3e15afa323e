import LogShipping.Database
import LogShipping.Membership

/-!
# The queue store

The queue store runs the operations on the queue tables as transactions of the database and announces
the queues that appear, change owner and disappear. A queue is handed over only while its owner is
reported dead, both when the transaction begins and just before it commits.
-/

namespace LogShipping

inductive QueueEvent
  | created (key : QueueKey)
  | transferred (source target : QueueKey)
  | dropped (key : QueueKey)
  deriving Repr, DecidableEq

namespace QueueStore

/-- The answer of an operation, with the database after it and the events it announced. -/
structure Reply (α : Type) where
  answer : Outcome α
  database : Database
  events : List QueueEvent

def create (database : Database) (key : QueueKey) (seed : Option (FileRef × Nat)) : Reply Bool :=
  match database.transact fun tables ↦ .ok (tables.create key seed) with
  | (.ok true, database) => ⟨.ok true, database, [.created key]⟩
  | (answer, database) => ⟨answer, database, []⟩

/-- Runs a transaction that announces nothing. -/
def quietly (database : Database) (run : QueueTables → Outcome QueueTables) : Reply Unit :=
  let (answer, database) := database.transact fun tables ↦ (run tables).map ((), ·)
  ⟨answer, database, []⟩

def enqueue (database : Database) (key : QueueKey) (file : FileRef) : Reply Unit :=
  quietly database (·.enqueue key file)

def advance (database : Database) (key : QueueKey) (start : Nat) (target : LogPosition) : Reply Unit :=
  quietly database (·.advance key start target)

def finish (database : Database) (key : QueueKey) (seq : UInt64) : Reply Unit :=
  quietly database (·.finish key seq)

def drop (database : Database) (key : QueueKey) : Reply Bool :=
  match database.transact fun tables ↦ .ok (tables.drop key) with
  | (.ok true, database) => ⟨.ok true, database, [.dropped key]⟩
  | (answer, database) => ⟨answer, database, []⟩

/-- Hands the queue of a dead owner to another, and answers the key it has from then on. -/
def transfer (database : Database) (membership : Membership) (key : QueueKey) (newOwner : String) :
    Reply QueueKey × Membership :=
  let (alive, membership) := membership.isAlive key.owner
  if alive then (⟨.error (.sourceStillAlive key.owner), database, []⟩, membership)
  else
    match database.transact fun tables ↦ (tables.handOver key newOwner).map ((), ·) with
    | (.error error, database) => (⟨.error error, database, []⟩, membership)
    | (.ok _, changed) =>
      let (alive, membership) := membership.isAlive key.owner
      if alive then (⟨.error (.sourceStillAlive key.owner), database, []⟩, membership)
      else
        let target := key.withOwner newOwner
        (⟨.ok target, changed, [.transferred key target]⟩, membership)

end QueueStore

end LogShipping
