import LogShipping.Proofs.Engine.Connections
import LogShipping.Proofs.Engine.Offers
import Mathlib.Data.List.Nodup
import Mathlib.Logic.Relation

/-!
# What an engine's work comes down to

When an engine starts, follows its feeds, looks after itself or stops, what it does is a chain of a few kinds
of deeds: it starts a worker, stops or forgets one, wakes or reaps them, creates the queue for a peer that is
registered, drops one whose peer is not, lists a file that its storage has told of, refreshes the registry,
or keeps its books. What each deed keeps, the engine keeps. To let a worker work is a chain of its steps.
-/

namespace LogShipping

theorem Registry.contains_of_mem_peers {registry : Registry} {peer : Peer} (h : peer ∈ registry.peers) :
    registry.contains peer.id = true := by
  obtain ⟨entry, hentry, rfl⟩ := List.mem_map.mp (List.mem_mergeSort.mp h)
  unfold contains cached?
  rw [List.find?_isSome]
  exact ⟨entry, hentry, beq_self_eq_true _⟩

/-- A notice is taken off what the feed keeps. -/
theorem Feed.mem_of_next {α : Type} {feed : Feed α} {place later : Nat} {value : α}
    (h : feed.next place = .notice value later) : value ∈ feed.kept := by
  unfold Feed.next at h
  split at h
  case isTrue => cases h
  case isFalse =>
    split at h
    case h_1 _ hvalue =>
      cases h
      exact List.mem_of_getElem? hvalue
    case h_2 => cases h

namespace Engine

namespace Turn

/-- The node's storage has told of the file: it is being written, or a notice of its begin is kept. -/
def Told (turn : Turn) (file : FileRef) : Prop :=
  (∃ committed, turn.world.activeLog turn.engine.node = some (file, committed)) ∨
    .rolled file ∈ (turn.world.storage turn.engine.node).feed.kept

end Turn

/-- One deed of an engine. -/
inductive Deed : Turn → Turn → Prop
  /-- Nothing is touched but counts, circuits, sinks, and what the engine notes for itself. -/
  | books (turn : Turn) {after : Turn} (hworld : ∃ measures, after.world = { turn.world with measures })
      (hsettings : after.engine.settings = turn.engine.settings)
      (hworkers : after.engine.workers = turn.engine.workers)
      (hfacilities : ∃ circuits, after.engine.facilities = { turn.engine.facilities with circuits }) :
      Deed turn after
  /-- A worker is started for a queue that has none at work. -/
  | recruit (turn : Turn) (key : QueueKey) (sink : Sink) (circuit : Nat) (gate : Gate)
      (hidle : turn.engine.hasLiveWorker key = false)
      (hgate : turn.world.registry.gate? key.peer = some gate) :
      Deed turn { turn with engine := turn.engine.putWorker (.create key sink circuit gate) }
  | forget (turn : Turn) (key : QueueKey) (hidle : turn.engine.hasLiveWorker key = false) :
      Deed turn { turn with engine := turn.engine.removeWorker key }
  | dismiss (turn : Turn) (worker : Worker) : Deed turn (turn.dismiss worker)
  | wake (turn : Turn) : Deed turn turn.wakeWorkers
  | reap (turn : Turn) : Deed turn { turn with engine := turn.engine.reap }
  | create (turn : Turn) (peer : String) (hpeer : turn.world.registry.contains peer = true) :
      Deed turn { turn with
        world := (turn.world.createQueue (turn.own peer) (turn.world.activeLog turn.engine.node)).2 }
  | drop (turn : Turn) (key : QueueKey) (hpeer : turn.world.registry.contains key.peer = false) :
      Deed turn { turn with world := (turn.world.dropQueue key).2 }
  | enqueue (turn : Turn) (key : QueueKey) {file : FileRef} (hfile : turn.Told file) :
      Deed turn { turn with world := (turn.world.enqueue key file).2 }
  | refresh (turn : Turn) : Deed turn { turn with world := turn.world.refresh.2 }

def Deeds : Turn → Turn → Prop := Relation.ReflTransGen Deed

theorem Deeds.refl (turn : Turn) : Deeds turn turn := Relation.ReflTransGen.refl

theorem Deed.deeds {turn after : Turn} (h : Deed turn after) : Deeds turn after := .single h

theorem Deeds.trans {turn middle after : Turn} (h : Deeds turn middle) (hmore : Deeds middle after) :
    Deeds turn after := Relation.ReflTransGen.trans h hmore

namespace Turn

variable {turn after : Turn}

/-! ## Workers -/

section Workers

variable (turn : Turn)

theorem deeds_sinkFor (peer : Peer) :
    Deed turn (turn.sinkFor peer).2 ∧ (turn.sinkFor peer).2.engine.workers = turn.engine.workers := by
  obtain ⟨measures, hworld⟩ := world_sinkFor turn peer
  have hengine : ∃ sinks, (turn.sinkFor peer).2.engine = { turn.engine with sinks } := by
    unfold sinkFor
    split
    case h_1 => exact ⟨_, rfl⟩
    case h_2 =>
      dsimp only
      split <;> exact ⟨_, rfl⟩
  obtain ⟨sinks, hengine⟩ := hengine
  refine ⟨.books turn ⟨measures, hworld⟩ ?_ ?_ ⟨turn.engine.facilities.circuits, ?_⟩, ?_⟩ <;> rw [hengine]

theorem deeds_spawn (key : QueueKey) : Deeds turn (turn.spawn key) := by
  unfold spawn
  split
  case h_2 => exact .refl turn
  case h_1 peer gate _ hgate =>
    split
    case isTrue => exact .refl turn
    case isFalse hlive =>
      obtain ⟨hbooks, hworkers⟩ := deeds_sinkFor turn peer
      obtain ⟨measures, hworld⟩ := world_sinkFor turn peer
      have hidle : turn.engine.hasLiveWorker key = false := Bool.not_eq_true _ ▸ hlive
      split
      case h_1 error after hanswer =>
        rw [hanswer] at hbooks hworkers
        refine hbooks.deeds.trans (Deed.forget after key ?_).deeds
        unfold hasLiveWorker worker? at hidle ⊢
        rw [hworkers]
        exact hidle
      case h_2 sink after hanswer =>
        rw [hanswer] at hbooks hworkers hworld
        dsimp only
        generalize hcircuits : after.engine.facilities.circuits.ofPeer peer.id = ready
        obtain ⟨entry, circuits⟩ := ready
        have hready : Deed after
            ⟨after.world, { after.engine with facilities := { after.engine.facilities with circuits } }⟩ :=
          .books after ⟨after.world.measures, rfl⟩ rfl rfl ⟨circuits, rfl⟩
        refine hbooks.deeds.trans (hready.deeds.trans
          (Deed.recruit _ key sink entry.number gate ?_ ?_).deeds)
        · unfold hasLiveWorker worker? at hidle ⊢
          rw [hworkers]
          exact hidle
        · rw [hworld]
          exact hgate

theorem deeds_dismissAll (workers : List Worker) : Deeds turn (turn.dismissAll workers) := by
  unfold dismissAll
  induction workers generalizing turn with
  | nil => exact .refl turn
  | cons worker rest ih => exact (Deed.dismiss turn worker).deeds.trans (ih (turn.dismiss worker))

end Workers

/-! ## Queues -/

section Queues

variable (turn : Turn)

theorem deeds_ensureQueue {peer : String} (hpeer : turn.world.registry.contains peer = true) :
    Deeds turn (turn.ensureQueue peer).2 := by
  have hcreate := (Deed.create turn peer hpeer).deeds
  unfold own at hcreate
  unfold ensureQueue
  dsimp only
  split
  case h_1 error world hanswer =>
    rw [hanswer] at hcreate
    exact hcreate
  case h_2 answer world hanswer =>
    rw [hanswer] at hcreate
    exact hcreate.trans (deeds_spawn _ _)

theorem deeds_ensureQueues (peers : List Peer)
    (hpeers : ∀ peer ∈ peers, turn.world.registry.contains peer.id = true) :
    Deeds turn (turn.ensureQueues peers).2 := by
  induction peers generalizing turn with
  | nil => exact .refl turn
  | cons peer rest ih =>
    have hrest := fun other hmem ↦ hpeers other (List.mem_cons_of_mem peer hmem)
    unfold ensureQueues
    split
    case isTrue => exact ih turn hrest
    case isFalse =>
      have hfirst := deeds_ensureQueue turn (hpeers peer List.mem_cons_self)
      have hregistry := congrArg Roster.registry (extends_ensureQueue turn peer.id).roster
      split
      case h_1 answer after hanswer =>
        rw [hanswer] at hfirst hregistry
        change after.world.registry = turn.world.registry at hregistry
        exact hfirst.trans (ih after (hregistry ▸ hrest))
      case h_2 error after hanswer =>
        rw [hanswer] at hfirst
        exact hfirst

theorem deeds_adopt (keys : List QueueKey) : Deeds turn (turn.adopt keys).2 := by
  induction keys generalizing turn with
  | nil => exact .refl turn
  | cons key rest ih =>
    unfold adopt
    split
    case isTrue => exact (deeds_spawn turn key).trans (ih (turn.spawn key))
    case isFalse hpeer =>
      have hdrop := (Deed.drop turn key (Bool.not_eq_true _ ▸ hpeer)).deeds
      split
      case h_1 answer world hanswer =>
        rw [hanswer] at hdrop
        exact hdrop.trans (ih { turn with world })
      case h_2 error world hanswer =>
        rw [hanswer] at hdrop
        exact hdrop

theorem deeds_adoptOwned : Deeds turn turn.adoptOwned.2 := by
  unfold adoptOwned
  split
  case h_1 => exact .refl turn
  case h_2 keys _ => exact deeds_adopt turn keys

theorem deeds_sync : Deeds turn turn.sync.2 := by
  have hensured := deeds_ensureQueues turn turn.world.registry.peers
    fun _ ↦ Registry.contains_of_mem_peers
  unfold sync
  split
  case h_1 error after hanswer =>
    rw [hanswer] at hensured
    exact hensured
  case h_2 answer after hanswer =>
    rw [hanswer] at hensured
    exact hensured.trans (deeds_adoptOwned after)

theorem deeds_enqueueAll {file : FileRef} (hfile : turn.Told file) : Deeds turn (turn.enqueueAll file) := by
  unfold enqueueAll
  split
  case h_1 => exact .refl turn
  case h_2 keys _ =>
    generalize keys.filter (!·.isRecovered) = keys
    have hfold (world : World) (hworld : Told { turn with world } file) : Deeds { turn with world }
        { turn with world := keys.foldl (fun world key ↦ (world.enqueue key file).2) world } := by
      induction keys generalizing world with
      | nil => exact .refl _
      | cons key rest ih =>
        exact (Deed.enqueue { turn with world } key hworld).deeds.trans (ih (world.enqueue key file).2 hworld)
    exact hfold turn.world hfile

theorem deeds_reconcile : Deeds turn turn.reconcile := by
  unfold reconcile
  split
  case h_1 => exact .refl turn
  case h_2 file committed hactive => exact deeds_enqueueAll turn (.inl ⟨committed, hactive⟩)

theorem deeds_dropAll (engine : Engine) {peer : String} {keys : List QueueKey}
    (hkeys : ∀ key ∈ keys, key.peer = peer) {world : World} (hgone : world.registry.contains peer = false) :
    Deeds ⟨world, engine⟩ ⟨keys.foldl (fun world key ↦ (world.dropQueue key).2) world, engine⟩ := by
  induction keys generalizing world with
  | nil => exact .refl _
  | cons key rest ih =>
    have hkey : key.peer = peer := hkeys key List.mem_cons_self
    refine (Deed.drop ⟨world, engine⟩ key (hkey ▸ hgone)).deeds.trans (ih ?_ hgone)
    exact fun other hmem ↦ hkeys other (List.mem_cons_of_mem key hmem)

theorem deeds_removePeerQueues (peer : String) : Deeds turn (turn.removePeerQueues peer) := by
  refine (deeds_dismissAll turn (turn.engine.workers.filter (·.key.peer == peer))).trans ?_
  unfold removePeerQueues
  generalize turn.dismissAll (turn.engine.workers.filter (·.key.peer == peer)) = quiet
  have hended : Deed quiet ⟨quiet.world, { quiet.engine with
      facilities := { quiet.engine.facilities with circuits := quiet.engine.facilities.circuits.remove peer }
      sinks := quiet.engine.sinks.filter (·.1 != peer) }⟩ :=
    .books quiet ⟨quiet.world.measures, rfl⟩ rfl rfl ⟨_, rfl⟩
  dsimp only
  split
  case isTrue => exact hended.deeds
  case isFalse hgone =>
    split
    case h_1 => exact hended.deeds
    case h_2 keys _ =>
      refine hended.deeds.trans (deeds_dropAll _ (fun key hmem ↦ ?_) (Bool.not_eq_true _ ▸ hgone))
      exact beq_iff_eq.mp (List.mem_filter.mp hmem).2

end Queues

/-! ## Notices -/

section Notices

variable (turn : Turn)

theorem deed_setPlaces (places : Places) : Deed turn (turn.setPlaces places) :=
  .books turn ⟨turn.world.measures, rfl⟩ rfl rfl ⟨turn.engine.facilities.circuits, rfl⟩

theorem deed_setCoordinator (coordinator : Coordinator) : Deed turn (turn.setCoordinator coordinator) :=
  .books turn ⟨turn.world.measures, rfl⟩ rfl rfl ⟨turn.engine.facilities.circuits, rfl⟩

theorem deed_setState (state : EngineState) : Deed turn (turn.setState state) :=
  .books turn ⟨_, rfl⟩ rfl rfl ⟨turn.engine.facilities.circuits, rfl⟩

theorem deeds_onPeerEvent (event : PeerEvent) : Deeds turn (turn.onPeerEvent event) := by
  unfold onPeerEvent
  split
  case h_1 peer =>
    split
    case isTrue hpeer => exact deeds_ensureQueue turn hpeer
    case isFalse => exact .refl turn
  case h_2 id =>
    split
    case isTrue => exact .refl turn
    case isFalse => exact deeds_removePeerQueues turn id
  case h_3 => exact .refl turn
  case h_4 => exact .refl turn

theorem deeds_onQueueEvent (event : QueueEvent) : Deeds turn (turn.onQueueEvent event) := by
  unfold onQueueEvent
  split
  case h_1 =>
    split
    case isTrue => exact deeds_spawn turn _
    case isFalse => exact .refl turn
  case h_2 =>
    split
    case isTrue => exact deeds_spawn turn _
    case isFalse => exact .refl turn
  case h_3 =>
    split
    case isTrue =>
      split
      case h_1 worker _ => exact (Deed.dismiss turn worker).deeds
      case h_2 => exact .refl turn
    case isFalse => exact .refl turn

theorem deeds_onLogEvent {event : LogEvent}
    (hevent : event ∈ (turn.world.storage turn.engine.node).feed.kept) :
    Deeds turn (turn.onLogEvent event) := by
  unfold onLogEvent
  split
  case h_1 file => exact (deeds_enqueueAll turn (.inr hevent)).trans (Deed.wake _).deeds
  case h_2 => exact (Deed.wake turn).deeds

theorem deeds_nextPeerEvent? {places : Places} (h : turn.nextPeerEvent? places = some after) :
    Deeds turn after := by
  unfold nextPeerEvent? at h
  split at h
  case h_1 => cases h
  case h_2 event place _ =>
    cases h
    exact (deed_setPlaces turn _).deeds.trans (deeds_onPeerEvent _ event)
  case h_3 place _ =>
    cases h
    exact (deed_setPlaces turn _).deeds.trans (deeds_sync _)

theorem deeds_nextQueueEvent? {places : Places} (h : turn.nextQueueEvent? places = some after) :
    Deeds turn after := by
  unfold nextQueueEvent? at h
  split at h
  case h_1 => cases h
  case h_2 event place _ =>
    cases h
    exact (deed_setPlaces turn _).deeds.trans (deeds_onQueueEvent _ event)
  case h_3 place _ =>
    cases h
    exact (deed_setPlaces turn _).deeds.trans (deeds_adoptOwned _)

theorem deeds_nextLogEvent? {places : Places} (h : turn.nextLogEvent? places = some after) :
    Deeds turn after := by
  unfold nextLogEvent? at h
  split at h
  case h_1 => cases h
  case h_2 event place hnext =>
    cases h
    exact (deed_setPlaces turn _).deeds.trans (deeds_onLogEvent _ (Feed.mem_of_next hnext))
  case h_3 place _ =>
    cases h
    exact (deed_setPlaces turn _).deeds.trans ((deeds_reconcile _).trans (Deed.wake _).deeds)

theorem deeds_nextEvent? (h : turn.nextEvent? = some after) : Deeds turn after := by
  unfold nextEvent? at h
  split at h
  case h_1 => cases h
  case h_2 places _ =>
    rcases Option.or_eq_some_iff.mp h with hpeer | ⟨-, hrest⟩
    · exact deeds_nextPeerEvent? turn hpeer
    · rcases Option.or_eq_some_iff.mp hrest with hqueue | ⟨-, hlog⟩
      · exact deeds_nextQueueEvent? turn hqueue
      · exact deeds_nextLogEvent? turn hlog

theorem deeds_poll : Deeds turn turn.poll := by
  have hrefreshed := (Deed.refresh turn).deeds.trans (Deed.reap ⟨turn.world.refresh.2, turn.engine⟩).deeds
  have htimed : Deed ⟨turn.world.refresh.2, turn.engine.reap⟩ ⟨turn.world.refresh.2,
      { turn.engine.reap with
        nextPoll := turn.world.now + turn.engine.settings.settings.source.pollEvery }⟩ :=
    .books _ ⟨turn.world.refresh.2.measures, rfl⟩ rfl rfl ⟨turn.engine.facilities.circuits, rfl⟩
  exact hrefreshed.trans (htimed.deeds.trans ((deeds_sync _).trans (deeds_reconcile _)))

theorem deeds_lookAfter (anyway : Bool) : Deeds turn (turn.lookAfter anyway) := by
  unfold lookAfter
  split
  case isTrue =>
    split
    case isTrue => exact (deeds_poll turn).trans (Deed.wake _).deeds
    case isFalse => exact (Deed.wake turn).deeds
  case isFalse => exact .refl turn

/-- The coordinator leaves the rest of the engine alone. -/
theorem engine_coordinate? (h : turn.coordinate? = some after) :
    ∃ coordinator, after.engine = { turn.engine with coordinator } := by
  unfold coordinate? at h
  split at h
  case h_1 => cases h
  case h_2 =>
    cases h
    exact ⟨_, rfl⟩
  case h_3 =>
    split at h
    case isTrue =>
      cases h
      exact ⟨_, rfl⟩
    case isFalse => cases h
  case h_4 =>
    split at h
    case h_1 => cases h
    case h_2 =>
      cases h
      exact ⟨_, rfl⟩
    case h_3 =>
      cases h
      exact ⟨_, rfl⟩
    case h_4 =>
      split at h
      case isTrue =>
        cases h
        exact ⟨_, rfl⟩
      case isFalse =>
        cases h
        exact ⟨_, rfl⟩

end Notices

/-! ## Starting, stopping and administration -/

section Lifecycle

variable (turn : Turn)

theorem deeds_start : Deeds turn turn.start.2 := by
  unfold start
  split
  case isTrue => exact .refl turn
  case isFalse =>
    have hsynced := (deed_setState turn .starting).deeds.trans (deeds_sync (turn.setState .starting))
    dsimp only
    split
    case h_1 error after hanswer =>
      rw [hanswer] at hsynced
      exact hsynced.trans (deed_setState after .failed).deeds
    case h_2 answer after hanswer =>
      rw [hanswer] at hsynced
      have hrunning : Deed after { after with engine := { after.engine with
          places := (turn.setState .starting).beginFollowing.engine.places
          coordinator := if after.engine.settings.settings.failover.enabled then .fresh else .off } } :=
        .books after ⟨after.world.measures, rfl⟩ rfl rfl ⟨after.engine.facilities.circuits, rfl⟩
      exact hsynced.trans (hrunning.deeds.trans (deed_setState _ .running).deeds)

theorem deeds_quiesce : Deeds turn turn.quiesce := by
  have hquiet : Deed (turn.dismissAll turn.engine.workers) turn.quiesce :=
    .books _ ⟨_, rfl⟩ rfl rfl ⟨(turn.dismissAll turn.engine.workers).engine.facilities.circuits, rfl⟩
  exact (deeds_dismissAll turn _).trans hquiet.deeds

theorem deeds_shutdown : Deeds turn turn.shutdown :=
  (deed_setState turn .shuttingDown).deeds.trans
    ((deeds_quiesce _).trans (deed_setState _ .stopped).deeds)

theorem deeds_halt : Deeds turn turn.halt := (deeds_quiesce turn).trans (deed_setState _ .stopped).deeds

theorem engine_dropDrained (farewell : Farewell) (keys : List QueueKey) :
    (turn.dropDrained farewell keys).2.engine = turn.engine := by
  induction keys generalizing turn farewell with
  | nil => rfl
  | cons key rest ih =>
    unfold dropDrained
    split
    case h_1 => rfl
    case h_2 => exact ih turn farewell
    case h_3 =>
      split
      case isTrue => exact ih turn _
      case isFalse =>
        split
        case h_1 => rfl
        case h_2 dropped world _ => exact ih { turn with world } _

/-- The engine of a node that is taken out of replication has nothing left to do. -/
theorem engine_decommission :
    ∃ state, turn.decommission.2.engine =
      { ((turn.setState .shuttingDown).quiesce).engine with state } := by
  unfold decommission
  generalize (turn.setState .shuttingDown).quiesce = quiet
  dsimp only
  split
  case h_1 => exact ⟨quiet.engine.state, rfl⟩
  case h_2 keys _ =>
    have hengine := engine_dropDrained quiet ⟨[], []⟩ keys
    split
    case h_1 error after hanswer =>
      rw [hanswer] at hengine
      exact ⟨quiet.engine.state, hengine⟩
    case h_2 farewell after hanswer =>
      rw [hanswer] at hengine
      refine ⟨.stopped, ?_⟩
      rw [← hengine]
      rfl

/-- The registry is changed first. -/
theorem deeds_removePeer (id : String) :
    Deeds { turn with world := (turn.world.removePeer id).2 } (turn.removePeer id).2 := by
  unfold removePeer
  split
  case h_1 error world hanswer =>
    rw [hanswer]
    exact .refl _
  case h_2 answer world hanswer =>
    rw [hanswer]
    dsimp only
    split
    case isTrue => exact deeds_removePeerQueues _ id
    case isFalse => exact .refl _

/-- A peer that was added is in the cache. -/
theorem contains_of_addPeer {world after : World} {id connection : String} {peer : Peer}
    (h : world.addPeer id connection = (.ok peer, after)) : after.registry.contains id = true := by
  unfold World.addPeer World.settlePeers Registry.addPeer at h
  split at h
  case isTrue => cases h
  case isFalse =>
    split at h
    case isTrue => cases h
    case isFalse =>
      cases h
      refine (Registry.contains_insert world.registry id _).trans ?_
      simp

theorem deeds_addPeer (id connection : String) :
    Deeds { turn with world := (turn.world.addPeer id connection).2 } (turn.addPeer id connection).2 := by
  unfold addPeer
  split
  case h_1 error world hanswer =>
    rw [hanswer]
    exact .refl _
  case h_2 peer world hanswer =>
    have hensured := deeds_ensureQueue { turn with world } (contains_of_addPeer hanswer)
    rw [hanswer]
    dsimp only
    split
    case isTrue =>
      split
      case h_1 answer after hensure =>
        rw [hensure] at hensured
        exact hensured
      case h_2 error after hensure =>
        rw [hensure] at hensured
        exact hensured
    case isFalse => exact .refl _

end Lifecycle

/-! ## The workers' own steps -/

section Work

/-- The engine, after one of its workers has worked. -/
def resume (turn : Turn) (after : Worker.Turn) : Turn where
  world := after.world
  engine := { turn.engine with
    facilities := after.facilities
    workers := turn.engine.workers.map fun old ↦ if old.key = after.worker.key then after.worker else old }

/-- No queue has two workers. -/
def Distinct (turn : Turn) : Prop := (turn.engine.workers.map (·.key)).Nodup

theorem key_of_worker? {engine : Engine} {key : QueueKey} {worker : Worker}
    (h : engine.worker? key = some worker) : worker.key = key := by
  have hfound := List.find?_some h
  exact beq_iff_eq.mp hfound

theorem eq_of_key_eq (hdistinct : turn.Distinct) {x y : Worker} (hx : x ∈ turn.engine.workers)
    (hy : y ∈ turn.engine.workers) (hkey : x.key = y.key) : x = y :=
  List.inj_on_of_nodup_map hdistinct hx hy hkey

theorem keys_replaced (workers : List Worker) (after : Worker) :
    (workers.map fun old ↦ if old.key = after.key then after else old).map (·.key) =
      workers.map (·.key) := by
  rw [List.map_map]
  refine List.map_congr_left fun old _ ↦ ?_
  show (if old.key = after.key then after else old).key = old.key
  split
  case isTrue hkey => exact hkey.symm
  case isFalse => rfl

theorem keys_resume (turn : Turn) (after : Worker.Turn) :
    (turn.resume after).engine.workers.map (·.key) = turn.engine.workers.map (·.key) :=
  keys_replaced turn.engine.workers after.worker

theorem resume_resume (turn : Turn) {first second : Worker.Turn} (h : second.worker.key = first.worker.key) :
    (turn.resume first).resume second = turn.resume second := by
  unfold resume
  dsimp only
  rw [List.map_map]
  congr 2
  refine List.map_congr_left fun worker _ ↦ ?_
  dsimp only [Function.comp_apply]
  rw [h]
  by_cases hkey : worker.key = first.worker.key
  · rw [if_pos hkey, if_pos rfl, if_pos hkey]
  · rw [if_neg hkey, if_neg hkey]

theorem worker?_resume {key : QueueKey} {worker : Worker} (h : turn.engine.worker? key = some worker)
    {after : Worker.Turn} (hafter : after.worker.key = key) :
    (turn.resume after).engine.worker? key = some after.worker := by
  have hkey := key_of_worker? h
  unfold Engine.worker? resume at *
  rw [List.find?_map]
  have hsame : ((fun worker : Worker ↦ worker.key == key) ∘ fun old ↦
      if old.key = after.worker.key then after.worker else old) = fun worker ↦ worker.key == key := by
    funext old
    dsimp only [Function.comp_apply]
    split
    case isTrue hkey => rw [hkey]
    case isFalse => rfl
  rw [hsame, h, Option.map_some, if_pos (hkey.trans hafter.symm)]

/-- A worker makes one step. -/
inductive Works : Turn → Turn → Prop
  | step (turn : Turn) {key : QueueKey} {worker : Worker} (hworker : turn.engine.worker? key = some worker) :
      Works turn (turn.resume (Worker.step ⟨turn.world, turn.engine.facilities, worker⟩))

theorem resume_self (hdistinct : turn.Distinct) {key : QueueKey} {worker : Worker}
    (h : turn.engine.worker? key = some worker) :
    turn.resume ⟨turn.world, turn.engine.facilities, worker⟩ = turn := by
  have hworkers : (turn.engine.workers.map fun old ↦ if old.key = worker.key then worker else old) =
      turn.engine.workers := by
    refine (List.map_congr_left fun old hold ↦ ?_).trans (List.map_id _)
    split
    case isTrue hkey => exact (eq_of_key_eq hdistinct hold (List.mem_of_find?_eq_some h) hkey).symm
    case isFalse => rfl
  unfold resume
  dsimp only
  rw [hworkers]

theorem runWorker_of_worker? {key : QueueKey} {worker : Worker} (h : turn.engine.worker? key = some worker)
    (steps : Nat) : turn.runWorker steps key =
      turn.resume (Worker.run steps ⟨turn.world, turn.engine.facilities, worker⟩) := by
  have hkey : (Worker.run steps ⟨turn.world, turn.engine.facilities, worker⟩).worker.key = key :=
    (congrArg (·.assignment.key) (Worker.post_run steps _)).trans (key_of_worker? h)
  unfold runWorker resume
  rw [h, hkey]

/-- To work is to make one step after the other. -/
theorem works_runWorker (hdistinct : turn.Distinct) (steps : Nat) (key : QueueKey) :
    Relation.ReflTransGen Works turn (turn.runWorker steps key) := by
  cases hworker : turn.engine.worker? key with
  | none =>
    unfold runWorker
    rw [hworker]
  | some worker =>
    induction steps generalizing turn worker with
    | zero => rw [runWorker_of_worker? hworker, Worker.run, resume_self hdistinct hworker]
    | succ steps ih =>
      rw [runWorker_of_worker? hworker, Worker.run]
      dsimp only
      split
      case isTrue => exact .single (.step turn hworker)
      case isFalse =>
        generalize hfirst : Worker.step ⟨turn.world, turn.engine.facilities, worker⟩ = first
        have hkey : first.worker.key = key := by
          rw [← hfirst]
          exact (congrArg (·.assignment.key) (Worker.Turn.post_step ⟨_, _, worker⟩)).trans
            (key_of_worker? hworker)
        have hsame : (Worker.run steps first).worker.key = first.worker.key :=
          congrArg (·.assignment.key) (Worker.post_run steps first)
        have hthen := worker?_resume hworker hkey
        have hrest := ih (by unfold Distinct; rw [keys_resume]; exact hdistinct) first.worker hthen
        rw [runWorker_of_worker? hthen] at hrest
        change Relation.ReflTransGen Works (turn.resume first)
          ((turn.resume first).resume (Worker.run steps first)) at hrest
        rw [resume_resume turn hsame] at hrest
        exact .head (hfirst ▸ .step turn hworker) hrest

end Work

end Turn

end Engine

end LogShipping
