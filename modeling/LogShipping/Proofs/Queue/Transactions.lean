import LogShipping.Proofs.Queue.Operations
import LogShipping.World

/-!
# Queue operations as transactions

An operation of the queue store either commits, and then nothing but the queue tables has changed, or it
answers an error and everything is as before. Operations that create or drop a queue announce it, which
only the feed of queues shows.
-/

namespace LogShipping

/-! ## The database -/

namespace Database

def withQueues (database : Database) (queues : QueueTables) : Database := { database with queues }

/-- A transaction commits, or leaves the database as it was. -/
theorem transact_cases {α : Type} (database : Database)
    (run : QueueTables → Outcome (α × QueueTables)) :
    (∃ answer after, run database.queues = .ok (answer, after) ∧
      database.transact run = (.ok answer, database.withQueues after)) ∨
    (∃ error, database.transact run = (.error error, database) ∧
      (database.reachable = true → run database.queues = .error error)) := by
  unfold transact
  split
  case isTrue =>
    cases hrun : run database.queues with
    | ok result => exact .inl ⟨result.1, result.2, rfl, rfl⟩
    | error error => exact .inr ⟨error, rfl, fun _ ↦ rfl⟩
  case isFalse hdown => exact .inr ⟨unreachable, rfl, fun hup ↦ absurd hup hdown⟩

end Database

/-! ## The store -/

namespace QueueStore

/-- A transaction that announces nothing commits, or leaves the database as it was. -/
theorem quietly_cases (database : Database) (run : QueueTables → Outcome QueueTables) :
    (∃ after, run database.queues = .ok after ∧
      quietly database run = ⟨.ok (), database.withQueues after, []⟩) ∨
    (∃ error, quietly database run = ⟨.error error, database, []⟩ ∧
      (database.reachable = true → run database.queues = .error error)) := by
  unfold quietly
  rcases database.transact_cases fun tables ↦ (run tables).map ((), ·) with
    ⟨answer, after, hrun, hcommit⟩ | ⟨error, hcommit, hrun⟩
  · rw [hcommit]
    cases hresult : run database.queues with
    | error error =>
      rw [hresult] at hrun
      cases hrun
    | ok result =>
      rw [hresult] at hrun
      cases hrun
      exact .inl ⟨after, rfl, rfl⟩
  · rw [hcommit]
    refine .inr ⟨error, rfl, fun hup ↦ ?_⟩
    have hfailed := hrun hup
    cases hresult : run database.queues with
    | error other =>
      rw [hresult] at hfailed
      cases hfailed
      rfl
    | ok result =>
      rw [hresult] at hfailed
      cases hfailed

/-- A queue is created, and announced if it was not there. -/
theorem create_eq (database : Database) (key : QueueKey) (seed : Option (FileRef × Nat)) :
    create database key seed =
      if database.reachable then
        ⟨.ok (database.queues.create key seed).1, database.withQueues (database.queues.create key seed).2,
          if (database.queues.offset? key).isSome then [] else [.created key]⟩
      else ⟨.error Database.unreachable, database, []⟩ := by
  have hanswer : (database.queues.create key seed).1 = !(database.queues.offset? key).isSome := by
    unfold QueueTables.create
    cases database.queues.offset? key <;> cases seed <;> rfl
  simp only [create, Database.transact, Database.withQueues]
  generalize database.queues.create key seed = made at hanswer ⊢
  obtain ⟨answer, after⟩ := made
  obtain rfl : answer = _ := hanswer
  cases database.reachable <;> cases (database.queues.offset? key).isSome <;> rfl

/-- A queue is dropped, and announced if it was there. -/
theorem drop_eq (database : Database) (key : QueueKey) :
    drop database key =
      if database.reachable then
        ⟨.ok (database.queues.offset? key).isSome, database.withQueues (database.queues.remove key),
          if (database.queues.offset? key).isSome then [.dropped key] else []⟩
      else ⟨.error Database.unreachable, database, []⟩ := by
  simp only [drop, Database.transact, QueueTables.drop, Database.withQueues]
  cases database.reachable <;> cases (database.queues.offset? key).isSome <;> rfl

/-- A transfer hands the queue over and announces it, or leaves the database as it was. -/
theorem transfer_cases (database : Database) (membership : Membership) (key : QueueKey)
    (newOwner : String) :
    (∃ after, database.queues.handOver key newOwner = .ok after ∧
      (transfer database membership key newOwner).1 =
        ⟨.ok (key.withOwner newOwner), database.withQueues after,
          [.transferred key (key.withOwner newOwner)]⟩) ∨
    (∃ error, (transfer database membership key newOwner).1 = ⟨.error error, database, []⟩) := by
  unfold transfer
  dsimp only
  split
  case isTrue => exact .inr ⟨_, rfl⟩
  case isFalse =>
    rcases database.transact_cases fun tables ↦ (tables.handOver key newOwner).map ((), ·) with
      ⟨answer, after, hrun, hcommit⟩ | ⟨error, hcommit, -⟩
    · rw [hcommit]
      dsimp only
      split
      case isTrue => exact .inr ⟨_, rfl⟩
      case isFalse =>
        refine .inl ⟨after, ?_, rfl⟩
        cases hover : database.queues.handOver key newOwner with
        | error error =>
          rw [hover] at hrun
          cases hrun
        | ok result =>
          rw [hover] at hrun
          cases hrun
          rfl
    · rw [hcommit]
      exact .inr ⟨error, rfl⟩

end QueueStore

/-! ## The world -/

namespace World

variable {world : World} {key : QueueKey}

def withQueues (world : World) (queues : QueueTables) : World :=
  { world with database := world.database.withQueues queues }

/-- An operation that announces nothing commits, or leaves the world as it was. -/
theorem settleQueues_quietly_cases (world : World) (run : QueueTables → Outcome QueueTables) :
    (∃ after, run world.database.queues = .ok after ∧
      world.settleQueues (QueueStore.quietly world.database run) = (.ok (), world.withQueues after)) ∨
    (∃ error, world.settleQueues (QueueStore.quietly world.database run) = (.error error, world) ∧
      (world.database.reachable = true → run world.database.queues = .error error)) := by
  rcases QueueStore.quietly_cases world.database run with ⟨after, hrun, hreply⟩ | ⟨error, hreply, hrun⟩
  · rw [hreply]
    exact .inl ⟨after, hrun, rfl⟩
  · rw [hreply]
    exact .inr ⟨error, rfl, hrun⟩

theorem enqueue_cases (world : World) (key : QueueKey) (file : FileRef) :
    (∃ after, world.database.queues.enqueue key file = .ok after ∧
      world.enqueue key file = (.ok (), world.withQueues after)) ∨
    (∃ error, world.enqueue key file = (.error error, world) ∧
      (world.database.reachable = true → world.database.queues.enqueue key file = .error error)) :=
  world.settleQueues_quietly_cases (·.enqueue key file)

theorem advance_cases (world : World) (key : QueueKey) (start : Nat) (target : LogPosition) :
    (∃ after, world.database.queues.advance key start target = .ok after ∧
      world.advance key start target = (.ok (), world.withQueues after)) ∨
    (∃ error, world.advance key start target = (.error error, world) ∧
      (world.database.reachable = true →
        world.database.queues.advance key start target = .error error)) :=
  world.settleQueues_quietly_cases (·.advance key start target)

theorem finish_cases (world : World) (key : QueueKey) (seq : UInt64) :
    (∃ after, world.database.queues.finish key seq = .ok after ∧
      world.finish key seq = (.ok (), world.withQueues after)) ∨
    (∃ error, world.finish key seq = (.error error, world) ∧
      (world.database.reachable = true → world.database.queues.finish key seq = .error error)) :=
  world.settleQueues_quietly_cases (·.finish key seq)

/-- A queue is created, or nothing happens, except that its announcement may follow. -/
theorem createQueue_cases (world : World) (key : QueueKey) (seed : Option (FileRef × Nat)) :
    (∃ feed, world.createQueue key seed =
      (.ok (world.database.queues.create key seed).1,
        { world.withQueues (world.database.queues.create key seed).2 with queueFeed := feed })) ∨
    (∃ error, world.createQueue key seed = (.error error, world) ∧
      world.database.reachable = false) := by
  unfold createQueue
  rw [QueueStore.create_eq]
  split
  case isTrue => exact .inl ⟨_, rfl⟩
  case isFalse hdown => exact .inr ⟨_, rfl, Bool.eq_false_iff.mpr hdown⟩

/-- A queue is dropped, except that its announcement may follow. -/
theorem dropQueue_cases (world : World) (key : QueueKey) :
    (∃ feed, world.dropQueue key =
      (.ok (world.database.queues.offset? key).isSome,
        { world.withQueues (world.database.queues.remove key) with queueFeed := feed })) ∨
    (∃ error, world.dropQueue key = (.error error, world) ∧ world.database.reachable = false) := by
  unfold dropQueue
  rw [QueueStore.drop_eq]
  split
  case isTrue => exact .inl ⟨_, rfl⟩
  case isFalse hdown => exact .inr ⟨_, rfl, Bool.eq_false_iff.mpr hdown⟩

end World

end LogShipping
