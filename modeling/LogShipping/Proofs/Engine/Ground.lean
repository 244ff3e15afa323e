import LogShipping.Engine.Lifecycle
import LogShipping.Proofs.Queue.Offering
import LogShipping.Proofs.Worker.Transitions

/-!
# What an engine leaves alone

A node's log belongs to its storage: no engine writes to it. Most of what an engine does leaves the
queue tables alone too. Bringing the queues into agreement with the registry adds the queues that are
missing and then drops those of unknown peers, and a queue that is there before and after is the same.
-/

namespace LogShipping.Engine

/-- What the files listed on a node's queues depend on. -/
structure Ground where
  node : String
  storage : Storage
  reachable : Bool
  queues : QueueTables

namespace Ground

variable {before middle after : Ground}

def withQueues (ground : Ground) (queues : QueueTables) : Ground := { ground with queues }

/-- Only new queues were added. -/
def Adds (before after : Ground) : Prop :=
  ∃ queues, after = before.withQueues queues ∧ before.queues.Within queues

/-- Only queues were removed. -/
def Removes (before after : Ground) : Prop :=
  ∃ queues, after = before.withQueues queues ∧ queues.Within before.queues

/-- New queues were added, and then some were removed. -/
def Settles (before after : Ground) : Prop := ∃ middle, before.Adds middle ∧ middle.Removes after

theorem Adds.refl (ground : Ground) : ground.Adds ground := ⟨ground.queues, rfl, .refl _⟩

theorem Removes.refl (ground : Ground) : ground.Removes ground := ⟨ground.queues, rfl, .refl _⟩

theorem Settles.refl (ground : Ground) : ground.Settles ground := ⟨ground, .refl _, .refl _⟩

theorem Adds.trans (h : before.Adds middle) (hmore : middle.Adds after) : before.Adds after := by
  obtain ⟨queues, rfl, hwithin⟩ := h
  obtain ⟨larger, rfl, hlarger⟩ := hmore
  exact ⟨larger, rfl, hwithin.trans hlarger⟩

theorem Removes.trans (h : before.Removes middle) (hmore : middle.Removes after) :
    before.Removes after := by
  obtain ⟨queues, rfl, hwithin⟩ := h
  obtain ⟨smaller, rfl, hsmaller⟩ := hmore
  exact ⟨smaller, rfl, QueueTables.Within.trans hsmaller hwithin⟩

theorem Adds.settles (h : before.Adds after) : before.Settles after := ⟨after, h, .refl after⟩

theorem Removes.settles (h : before.Removes after) : before.Settles after := ⟨before, .refl before, h⟩

theorem Settles.eq_withQueues (h : before.Settles after) : after = before.withQueues after.queues := by
  obtain ⟨_, ⟨_, rfl, -⟩, _, rfl, -⟩ := h
  rfl

/-- A queue that is there before and after lists the same. -/
theorem Settles.lists_eq (h : before.Settles after) {key : QueueKey}
    (hbefore : (before.queues.offset? key).isSome = true)
    (hafter : (after.queues.offset? key).isSome = true) (seq : UInt64) :
    after.queues.lists key seq = before.queues.lists key seq := by
  obtain ⟨_, ⟨larger, rfl, hlarger⟩, smaller, rfl, hsmaller⟩ := h
  calc smaller.lists key seq
      = larger.lists key seq := (hsmaller.lists_eq hafter seq).symm
    _ = before.queues.lists key seq := hlarger.lists_eq hbefore seq

end Ground

namespace Turn

variable {turn : Turn}

def ground (turn : Turn) : Ground :=
  ⟨turn.engine.node, turn.world.storage turn.engine.node, turn.world.database.reachable,
    turn.world.database.queues⟩

/-! ## What leaves the ground alone -/

section Frame

variable (turn : Turn)

@[simp] theorem ground_sinkFor (peer : Peer) : (turn.sinkFor peer).2.ground = turn.ground := by
  unfold sinkFor
  split
  case h_1 => rfl
  case h_2 =>
    dsimp only
    split <;> rfl

@[simp] theorem ground_spawn (key : QueueKey) : (turn.spawn key).ground = turn.ground := by
  unfold spawn
  split
  case h_1 peer gate _ _ =>
    split
    case isTrue => rfl
    case isFalse =>
      have hsink := ground_sinkFor turn peer
      split
      case h_1 error after hanswer =>
        rw [hanswer] at hsink
        exact hsink
      case h_2 sink after hanswer =>
        rw [hanswer] at hsink
        exact hsink
  case h_2 => rfl

/-- Nothing of the world but the counts is touched when a sink is connected. -/
theorem world_sinkFor (peer : Peer) : ∃ measures, (turn.sinkFor peer).2.world = { turn.world with measures } := by
  unfold sinkFor
  split
  case h_1 => exact ⟨turn.world.measures, rfl⟩
  case h_2 =>
    dsimp only
    split
    case h_1 => exact ⟨_, rfl⟩
    case h_2 => exact ⟨_, rfl⟩

/-- Nothing of the world but the counts is touched when a worker is started. -/
theorem world_spawn (key : QueueKey) : ∃ measures, (turn.spawn key).world = { turn.world with measures } := by
  unfold spawn
  split
  case h_1 peer gate _ _ =>
    split
    case isTrue => exact ⟨turn.world.measures, rfl⟩
    case isFalse =>
      obtain ⟨measures, hworld⟩ := world_sinkFor turn peer
      split
      case h_1 error after hanswer =>
        rw [hanswer] at hworld
        exact ⟨measures, hworld⟩
      case h_2 sink after hanswer =>
        rw [hanswer] at hworld
        exact ⟨measures, hworld⟩
  case h_2 => exact ⟨turn.world.measures, rfl⟩

@[simp] theorem ground_dismiss (worker : Worker) : (turn.dismiss worker).ground = turn.ground := by
  have hdatabase : (turn.dismiss worker).world.database = turn.world.database :=
    congrArg (·.database) (Worker.Turn.scene_stop ⟨turn.world, turn.engine.facilities, worker⟩)
  have hstorages : (turn.dismiss worker).world.storages = turn.world.storages := by
    show (Worker.Turn.abandonCall ⟨turn.world, turn.engine.facilities, worker⟩).world.storages = _
    unfold Worker.Turn.abandonCall
    split
    case h_1 =>
      unfold Sink.abandon
      split <;> rfl
    case h_2 => rfl
  have hnode : (turn.dismiss worker).engine.node = turn.engine.node := rfl
  unfold ground World.storage
  rw [hnode, hdatabase, hstorages]

@[simp] theorem ground_dismissAll (workers : List Worker) :
    (turn.dismissAll workers).ground = turn.ground := by
  unfold dismissAll
  induction workers generalizing turn with
  | nil => rfl
  | cons worker rest ih => rw [List.foldl_cons, ih, ground_dismiss]

@[simp] theorem ground_halt : turn.halt.ground = turn.ground := ground_dismissAll turn turn.engine.workers

theorem ground_onQueueEvent (event : QueueEvent) : (turn.onQueueEvent event).ground = turn.ground := by
  unfold onQueueEvent
  split
  case h_1 =>
    split
    case isTrue => exact ground_spawn turn _
    case isFalse => rfl
  case h_2 =>
    split
    case isTrue => exact ground_spawn turn _
    case isFalse => rfl
  case h_3 =>
    split
    case isTrue =>
      split
      case h_1 worker _ => exact ground_dismiss turn worker
      case h_2 => rfl
    case isFalse => rfl

/-- Bringing the registry's cache up to the database is nothing to the queues. -/
theorem ground_refresh (nextPoll : Nat) :
    ground ⟨turn.world.refresh.2, { turn.engine.reap with nextPoll }⟩ = turn.ground := by
  unfold World.refresh World.settlePeers Registry.refresh
  split <;> rfl

end Frame

/-! ## Adding and removing queues -/

theorem ensureQueue_adds (turn : Turn) (peer : String) :
    turn.ground.Adds (turn.ensureQueue peer).2.ground := by
  unfold ensureQueue
  rcases turn.world.createQueue_cases (.own turn.engine.node peer)
    (turn.world.activeLog turn.engine.node) with ⟨feed, hcreate⟩ | ⟨error, hcreate, -⟩
  · dsimp only
    rw [hcreate]
    dsimp only
    rw [ground_spawn]
    exact ⟨_, rfl, QueueTables.within_create _ _ _⟩
  · dsimp only
    rw [hcreate]
    exact .refl turn.ground

theorem ensureQueues_adds (turn : Turn) (peers : List Peer) :
    turn.ground.Adds (turn.ensureQueues peers).2.ground := by
  induction peers generalizing turn with
  | nil => exact .refl turn.ground
  | cons peer rest ih =>
    unfold ensureQueues
    split
    case isTrue => exact ih turn
    case isFalse =>
      have hadds := ensureQueue_adds turn peer.id
      split
      case h_1 answer after hanswer =>
        rw [hanswer] at hadds
        exact hadds.trans (ih after)
      case h_2 error after hanswer =>
        rw [hanswer] at hadds
        exact hadds

/-- Dropping a queue removes it, or does nothing. -/
theorem dropQueue_removes (turn : Turn) (key : QueueKey) :
    turn.ground.Removes (ground { turn with world := (turn.world.dropQueue key).2 }) := by
  rcases turn.world.dropQueue_cases key with ⟨feed, hdrop⟩ | ⟨error, hdrop, -⟩
  · rw [hdrop]
    exact ⟨_, rfl, QueueTables.within_remove _ key⟩
  · rw [hdrop]
    exact .refl turn.ground

theorem dropQueues_removes (turn : Turn) (keys : List QueueKey) :
    turn.ground.Removes (ground { turn with
      world := keys.foldl (fun world key ↦ (world.dropQueue key).2) turn.world }) := by
  induction keys generalizing turn with
  | nil => exact .refl turn.ground
  | cons key rest ih =>
    exact (dropQueue_removes turn key).trans (ih { turn with world := (turn.world.dropQueue key).2 })

theorem adopt_removes (turn : Turn) (keys : List QueueKey) :
    turn.ground.Removes (turn.adopt keys).2.ground := by
  induction keys generalizing turn with
  | nil => exact .refl turn.ground
  | cons key rest ih =>
    unfold adopt
    split
    case isTrue =>
      rw [← ground_spawn turn key]
      exact ih (turn.spawn key)
    case isFalse =>
      have hremoves := dropQueue_removes turn key
      split
      case h_1 answer world hanswer =>
        rw [hanswer] at hremoves
        exact hremoves.trans (ih { turn with world })
      case h_2 error world hanswer =>
        rw [hanswer] at hremoves
        exact hremoves

theorem adoptOwned_removes (turn : Turn) : turn.ground.Removes turn.adoptOwned.2.ground := by
  unfold adoptOwned
  split
  case h_1 => exact .refl turn.ground
  case h_2 keys _ => exact adopt_removes turn keys

theorem sync_settles (turn : Turn) : turn.ground.Settles turn.sync.2.ground := by
  have hadds := ensureQueues_adds turn turn.world.registry.peers
  unfold sync
  split
  case h_1 error after hanswer =>
    rw [hanswer] at hadds
    exact hadds.settles
  case h_2 answer after hanswer =>
    rw [hanswer] at hadds
    exact ⟨after.ground, hadds, adoptOwned_removes after⟩

theorem removePeerQueues_removes (turn : Turn) (peer : String) :
    turn.ground.Removes (turn.removePeerQueues peer).ground := by
  have hdismissed := ground_dismissAll turn (turn.engine.workers.filter (·.key.peer == peer))
  rw [← hdismissed]
  unfold removePeerQueues
  dsimp only
  split
  case isTrue => exact .refl _
  case isFalse =>
    split
    case h_1 => exact .refl _
    case h_2 => exact dropQueues_removes _ _

theorem onPeerEvent_settles (turn : Turn) (event : PeerEvent) :
    turn.ground.Settles (turn.onPeerEvent event).ground := by
  unfold onPeerEvent
  split
  case h_1 peer =>
    split
    case isTrue => exact (ensureQueue_adds turn peer.id).settles
    case isFalse => exact .refl turn.ground
  case h_2 peer =>
    split
    case isTrue => exact .refl turn.ground
    case isFalse => exact (removePeerQueues_removes turn peer).settles
  case h_3 => exact .refl turn.ground
  case h_4 => exact .refl turn.ground

theorem start_settles (turn : Turn) : turn.ground.Settles turn.start.2.ground := by
  have hsync := sync_settles (turn.setState .starting)
  unfold start
  split
  case isTrue => exact .refl turn.ground
  case isFalse =>
    dsimp only
    split
    case h_1 error after hanswer =>
      rw [hanswer] at hsync
      exact hsync
    case h_2 answer after hanswer =>
      rw [hanswer] at hsync
      exact hsync

end Turn

end LogShipping.Engine
