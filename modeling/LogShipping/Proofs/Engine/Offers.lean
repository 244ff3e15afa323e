import LogShipping.Proofs.Engine.Ground

/-!
# What an engine offers to its queues

An engine offers a file to the queues of its node when it handles the notice that the file was begun, and
offers the file that is being written when it has fallen behind on the feed or looks after itself. Either
way each of these queues is offered the one file; nothing else is, and nothing at all while the database
cannot be reached.
-/

namespace LogShipping

theorem World.enqueue_eq_offer (world : World) (hup : world.database.reachable = true) (key : QueueKey)
    (file : FileRef) :
    (world.enqueue key file).2 = world.withQueues (world.database.queues.offer key file) := by
  rcases world.enqueue_cases key file with ⟨after, hok, henqueue⟩ | ⟨error, henqueue, hrefused⟩
  · rw [henqueue, QueueTables.offer, hok]
    rfl
  · rw [henqueue, QueueTables.offer, hrefused hup]
    rfl

namespace Engine

/-- The queue was offered a number, or nothing. -/
def Ground.Takes (key : QueueKey) (number : Option UInt64) (before after : Ground) : Prop :=
  match number with
  | none => ∀ seq, after.queues.lists key seq = before.queues.lists key seq
  | some seq => QueueTables.Offered key seq before.queues after.queues

/-- A queue that listed the same before was offered the same. -/
theorem Ground.Takes.of_lists_eq {before middle after : Ground} {key : QueueKey} {number : Option UInt64}
    (h : middle.Takes key number after)
    (hthere : (middle.queues.offset? key).isSome = (before.queues.offset? key).isSome)
    (hlists : ∀ seq, middle.queues.lists key seq = before.queues.lists key seq) :
    before.Takes key number after := by
  cases number with
  | none => exact fun seq ↦ (h seq).trans (hlists seq)
  | some seq =>
    have htail := QueueTables.tailSeq?_congr hlists
    refine ⟨h.1.trans hthere, fun other ↦ ?_⟩
    rw [h.2, hlists, htail]

namespace Turn

variable {turn after : Turn} {peer : String}

/-- The node's own queue for a peer. -/
def own (turn : Turn) (peer : String) : QueueKey := .own turn.engine.node peer

def hasQueue (turn : Turn) (peer : String) : Bool :=
  (turn.world.database.queues.offset? (turn.own peer)).isSome

/-! ## One file -/

/-- What the queues are offered if the engine offers a file. -/
def offering (turn : Turn) (file : FileRef) : Option UInt64 :=
  if turn.world.database.reachable then some file.seq else none

/-- What they are offered if it offers the file being written. -/
def reconciled (turn : Turn) : Option UInt64 :=
  (turn.world.activeLog turn.engine.node).bind fun active ↦ turn.offering active.1

theorem reconciled_congr (h : after.ground = turn.ground.withQueues after.ground.queues) :
    after.reconciled = turn.reconciled := by
  have hactive : after.world.activeLog after.engine.node = turn.world.activeLog turn.engine.node :=
    congrArg (·.storage.active) h
  have hup : after.world.database.reachable = turn.world.database.reachable :=
    congrArg Ground.reachable h
  unfold reconciled offering
  rw [hactive, hup]

/-- What they are offered when it takes the next notice off the feed of the node's log. -/
def noticed (turn : Turn) (places : Places) : Option UInt64 :=
  match (turn.world.storage turn.engine.node).feed.next places.log with
  | .notice (.rolled file) _ => turn.offering file
  | .behind _ => turn.reconciled
  | _ => none

/-- The queues that a file is offered to. -/
def localKeys (turn : Turn) : List QueueKey :=
  (turn.world.database.queues.keysOwnedBy turn.engine.node).filter (!·.isRecovered)

theorem own_mem_localKeys (h : turn.hasQueue peer = true) : turn.own peer ∈ turn.localKeys := by
  rw [localKeys, List.mem_filter, QueueTables.mem_keysOwnedBy]
  refine ⟨⟨h, rfl⟩, ?_⟩
  simp [own, QueueKey.own, QueueKey.isRecovered]

theorem ground_enqueueAll (hup : turn.world.database.reachable = true) (file : FileRef) :
    (turn.enqueueAll file).ground =
      turn.ground.withQueues (turn.world.database.queues.offerAll turn.localKeys file) := by
  have hfold (keys : List QueueKey) (world : World) (hworld : world.database.reachable = true) :
      keys.foldl (fun world key ↦ (world.enqueue key file).2) world =
        world.withQueues (world.database.queues.offerAll keys file) := by
    induction keys generalizing world with
    | nil => rfl
    | cons key rest ih =>
      rw [List.foldl_cons, world.enqueue_eq_offer hworld]
      exact ih (world.withQueues (world.database.queues.offer key file)) hworld
  unfold enqueueAll Database.query
  rw [if_pos hup]
  dsimp only
  rw [hfold _ _ hup]
  rfl

theorem enqueueAll_takes (turn : Turn) (hthere : turn.hasQueue peer = true) (file : FileRef) :
    turn.ground.Takes (turn.own peer) (turn.offering file) (turn.enqueueAll file).ground := by
  by_cases hup : turn.world.database.reachable = true
  · rw [offering, if_pos hup, ground_enqueueAll hup]
    exact QueueTables.offered_offerAll (own_mem_localKeys hthere) hthere file
  · have hnothing : turn.enqueueAll file = turn := by
      unfold enqueueAll Database.query
      rw [if_neg hup]
    rw [offering, if_neg hup, hnothing]
    exact fun _ ↦ rfl

theorem reconcile_takes (turn : Turn) (hthere : turn.hasQueue peer = true) :
    turn.ground.Takes (turn.own peer) turn.reconciled turn.reconcile.ground := by
  unfold reconciled reconcile
  cases turn.world.activeLog turn.engine.node with
  | none => exact fun _ ↦ rfl
  | some active => exact turn.enqueueAll_takes hthere active.1

theorem offset?_reconcile (turn : Turn) (key : QueueKey) :
    turn.reconcile.world.database.queues.offset? key = turn.world.database.queues.offset? key := by
  unfold reconcile
  split
  case h_1 => rfl
  case h_2 file _ _ =>
    by_cases hup : turn.world.database.reachable = true
    · have hqueues := congrArg Ground.queues (ground_enqueueAll hup file)
      have hoffered : (turn.enqueueAll file).world.database.queues = _ := hqueues
      rw [hoffered]
      exact QueueTables.offset?_offerAll _ file
    · unfold enqueueAll Database.query
      rw [if_neg hup]

theorem node_enqueueAll (turn : Turn) (file : FileRef) :
    (turn.enqueueAll file).engine.node = turn.engine.node := by
  unfold enqueueAll
  split <;> rfl

theorem node_reconcile (turn : Turn) : turn.reconcile.engine.node = turn.engine.node := by
  unfold reconcile
  split
  case h_1 => rfl
  case h_2 => exact node_enqueueAll turn _

/-! ## Notices and polls -/

theorem nextLogEvent?_takes {places : Places} (h : turn.nextLogEvent? places = some after)
    (hthere : turn.hasQueue peer = true) :
    turn.ground.Takes (turn.own peer) (turn.noticed places) after.ground ∧
      after.engine.node = turn.engine.node := by
  unfold nextLogEvent? at h
  unfold noticed
  split at h
  case h_1 hnext => cases h
  case h_2 event place hnext =>
    cases h
    rw [hnext]
    cases event with
    | rolled file =>
      exact ⟨(turn.setPlaces { places with log := place }).enqueueAll_takes hthere file,
        node_enqueueAll _ file⟩
    | appended seq length => exact ⟨fun _ ↦ rfl, rfl⟩
  case h_3 place hnext =>
    cases h
    rw [hnext]
    exact ⟨(turn.setPlaces { places with log := place }).reconcile_takes hthere, node_reconcile _⟩

/-- The other feeds offer nothing. -/
theorem nextPeerEvent?_settles {places : Places} (h : turn.nextPeerEvent? places = some after) :
    turn.ground.Settles after.ground := by
  unfold nextPeerEvent? at h
  split at h
  case h_1 => cases h
  case h_2 event place _ =>
    cases h
    exact onPeerEvent_settles (turn.setPlaces { places with peers := place }) event
  case h_3 place _ =>
    cases h
    exact sync_settles (turn.setPlaces { places with peers := place })

theorem nextQueueEvent?_settles {places : Places} (h : turn.nextQueueEvent? places = some after) :
    turn.ground.Settles after.ground := by
  unfold nextQueueEvent? at h
  split at h
  case h_1 => cases h
  case h_2 event place _ =>
    cases h
    rw [ground_onQueueEvent]
    exact .refl turn.ground
  case h_3 place _ =>
    cases h
    exact (adoptOwned_removes (turn.setPlaces { places with queues := place })).settles

/-- An engine that looks after itself first brings the queues into agreement with the registry. -/
theorem poll_eq (turn : Turn) :
    ∃ synced : Turn, turn.poll = synced.reconcile ∧ turn.ground.Settles synced.ground := by
  refine ⟨_, rfl, ?_⟩
  rw [← ground_refresh turn (turn.world.now + turn.engine.settings.settings.source.pollEvery)]
  exact sync_settles _

theorem node_poll (turn : Turn) : turn.poll.engine.node = turn.engine.node := by
  obtain ⟨synced, hpoll, hsettles⟩ := turn.poll_eq
  rw [hpoll, node_reconcile]
  exact congrArg Ground.node hsettles.eq_withQueues

/-- Then it offers the file being written to the queues that are left. -/
theorem poll_takes (hthere : turn.hasQueue peer = true) (hstill : turn.poll.hasQueue peer = true) :
    turn.ground.Takes (turn.own peer) turn.reconciled turn.poll.ground := by
  obtain ⟨synced, hpoll, hsettles⟩ := turn.poll_eq
  have hnode : synced.engine.node = turn.engine.node := congrArg Ground.node hsettles.eq_withQueues
  have hown : synced.own peer = turn.own peer := congrArg (QueueKey.own · peer) hnode
  have hsynced : (synced.world.database.queues.offset? (turn.own peer)).isSome = true := by
    rw [hpoll, hasQueue, own, node_reconcile, hnode, offset?_reconcile] at hstill
    exact hstill
  have hqueue : synced.hasQueue peer = true := by
    rw [hasQueue, hown]
    exact hsynced
  have htakes := synced.reconcile_takes hqueue
  rw [hown, reconciled_congr hsettles.eq_withQueues] at htakes
  rw [hpoll]
  exact htakes.of_lists_eq (hsynced.trans hthere.symm) (hsettles.lists_eq hthere hsynced)

end Turn

end Engine

end LogShipping
