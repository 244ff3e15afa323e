import LogShipping.Engine.Lifecycle
import LogShipping.Proofs.Engine.Ground
import LogShipping.Proofs.Failover.Steps
import LogShipping.Proofs.Peer.Cache
import LogShipping.Proofs.Worker.Post

/-!
# The sinks an engine holds

An engine connects a sink for a peer when it starts the first worker for it, from the connection that the
registry's cache holds then, and every later worker for the peer ships through the same sink, until the
engine ends all work for the peer. Nearly everything an engine does extends what it holds: sinks are kept
or connected, and workers stay at their posts, finish, or are started with the sink that is held. Ending
the work for a peer takes its sink away.
-/

namespace LogShipping.Engine

namespace Turn

/-- What the engine ships through, and what that depends on. -/
structure Connections where
  roster : Roster
  settings : NodeSettings
  sinks : List (String × Sink)

def connections (turn : Turn) : Connections :=
  ⟨turn.world.roster, turn.engine.settings, turn.engine.sinks⟩

/-- The sink the engine holds for a peer. -/
def sink? (turn : Turn) (peer : String) : Option Sink := turn.engine.sinks.lookup peer

/-- What the registry's cache holds for a peer. -/
def entry? (turn : Turn) (peer : String) : Option CachedPeer := turn.world.registry.cached? peer

def connect (turn : Turn) (peer : Peer) : Outcome Sink := Sink.connect turn.engine.settings.settings peer

/-- A worker with this assignment is at work. -/
def Employs (turn : Turn) (assignment : Worker.Assignment) : Prop :=
  ∃ worker ∈ turn.engine.workers, worker.isFinished = false ∧ worker.assignment = assignment

/-- The assignment is for the registration that is cached, with the sink that is held. -/
structure Assigns (turn : Turn) (assignment : Worker.Assignment) : Prop where
  gate : ∃ entry, turn.entry? assignment.key.peer = some entry ∧
    assignment.gate = ⟨assignment.key.peer, entry.registration⟩
  sink : turn.sink? assignment.key.peer = some assignment.sink

/-- A sink is connected from what the cache holds for the peer. -/
def Connects (turn : Turn) (peer : String) (sink : Sink) : Prop :=
  ∃ entry, turn.entry? peer = some entry ∧ turn.connect entry.peer = .ok sink

end Turn

open Turn

/-! ## Keeping, extending and tending -/

/-- Registry, settings and sinks are as before, and no worker is new. -/
structure Keeps (before after : Turn) : Prop where
  connections : after.connections = before.connections
  workers : ∀ assignment, after.Employs assignment → before.Employs assignment

/-- Sinks are kept or connected, and workers are started with the sinks that are held. -/
structure Extends (before after : Turn) : Prop where
  roster : after.world.roster = before.world.roster
  settings : after.engine.settings = before.engine.settings
  kept : ∀ peer sink, before.sink? peer = some sink → after.sink? peer = some sink
  connected : ∀ peer sink, after.sink? peer = some sink →
    before.sink? peer = some sink ∨ before.sink? peer = none ∧ before.Connects peer sink
  workers : ∀ assignment, after.Employs assignment → before.Employs assignment ∨ after.Assigns assignment

/-- Sinks may also be given up. -/
structure Tends (before after : Turn) : Prop where
  roster : after.world.roster = before.world.roster
  settings : after.engine.settings = before.engine.settings
  sinks : ∀ peer sink, after.sink? peer = some sink →
    before.sink? peer = some sink ∨ before.sink? peer = none ∧ before.Connects peer sink
  workers : ∀ assignment, after.Employs assignment → before.Employs assignment ∨ after.Assigns assignment

section Relations

variable {before middle after : Turn} {peer : String} {sink : Sink}

theorem entry?_congr (hroster : after.world.roster = before.world.roster) (peer : String) :
    after.entry? peer = before.entry? peer := by
  have hregistry : after.world.registry = before.world.registry := congrArg Roster.registry hroster
  unfold entry?
  rw [hregistry]

/-- The same sinks are connected as long as the registry is the same. -/
theorem connects_congr (hroster : after.world.roster = before.world.roster)
    (hsettings : after.engine.settings = before.engine.settings) :
    after.Connects peer sink ↔ before.Connects peer sink := by
  unfold Connects Turn.connect
  rw [entry?_congr hroster, hsettings]

theorem Keeps.refl (turn : Turn) : Keeps turn turn := ⟨rfl, fun _ h ↦ h⟩

theorem Keeps.trans (h : Keeps before middle) (hmore : Keeps middle after) : Keeps before after :=
  ⟨hmore.connections.trans h.connections,
    fun assignment hemploys ↦ h.workers assignment (hmore.workers assignment hemploys)⟩

theorem Keeps.sink? (h : Keeps before after) (peer : String) : after.sink? peer = before.sink? peer :=
  congrArg (·.sinks.lookup peer) h.connections

theorem Keeps.extends (h : Keeps before after) : Extends before after where
  roster := congrArg Connections.roster h.connections
  settings := congrArg Connections.settings h.connections
  kept := fun peer _ hsink ↦ (h.sink? peer).trans hsink
  connected := fun peer _ hsink ↦ .inl ((h.sink? peer).symm.trans hsink)
  workers := fun assignment hemploys ↦ .inl (h.workers assignment hemploys)

theorem Extends.tends (h : Extends before after) : Tends before after :=
  ⟨h.roster, h.settings, h.connected, h.workers⟩

theorem Extends.trans (h : Extends before middle) (hmore : Extends middle after) :
    Extends before after where
  roster := hmore.roster.trans h.roster
  settings := hmore.settings.trans h.settings
  kept := fun peer sink hsink ↦ hmore.kept peer sink (h.kept peer sink hsink)
  connected := by
    intro peer sink hsink
    rcases hmore.connected peer sink hsink with hkept | ⟨hnone, hconnects⟩
    · exact h.connected peer sink hkept
    · refine .inr ⟨?_, (connects_congr h.roster h.settings).mp hconnects⟩
      rw [Option.eq_none_iff_forall_not_mem]
      intro old hold
      rw [h.kept peer old hold] at hnone
      cases hnone
  workers := by
    intro assignment hemploys
    rcases hmore.workers assignment hemploys with hold | hnew
    · rcases h.workers assignment hold with holder | hassigns
      · exact .inl holder
      · obtain ⟨entry, hentry, hgate⟩ := hassigns.gate
        exact .inr ⟨⟨entry, (entry?_congr hmore.roster _).trans hentry, hgate⟩,
          hmore.kept _ _ hassigns.sink⟩
    · exact .inr hnew

theorem Keeps.extends_trans (h : Keeps before middle) (hmore : Extends middle after) :
    Extends before after := h.extends.trans hmore

/-- Whatever is given up in the end was there at first. -/
theorem Keeps.tends_trans (h : Keeps before middle) (hmore : Tends middle after) : Tends before after where
  roster := hmore.roster.trans h.extends.roster
  settings := hmore.settings.trans h.extends.settings
  sinks := by
    intro peer sink hsink
    rw [← h.sink? peer, ← connects_congr h.extends.roster h.extends.settings]
    exact hmore.sinks peer sink hsink
  workers := fun assignment hemploys ↦ (hmore.workers assignment hemploys).imp_left (h.workers assignment)

end Relations

/-! ## What starts no worker -/

section Frame

variable (turn : Turn)

/-- A change of the world that leaves the roster alone. -/
theorem keeps_of_world {world : World} (h : world.roster = turn.world.roster) :
    Keeps turn { turn with world } :=
  ⟨congrArg (Connections.mk · _ _) h, fun _ h ↦ h⟩

theorem keeps_removeWorker (key : QueueKey) :
    Keeps turn { turn with engine := turn.engine.removeWorker key } :=
  ⟨rfl, fun _ ⟨worker, hworker, hlive⟩ ↦ ⟨worker, (List.mem_filter.mp hworker).1, hlive⟩⟩

theorem keeps_reap (nextPoll : Nat) :
    Keeps turn { turn with engine := { turn.engine.reap with nextPoll } } :=
  ⟨rfl, fun _ ⟨worker, hworker, hlive⟩ ↦ ⟨worker, (List.mem_filter.mp hworker).1, hlive⟩⟩

theorem keeps_wakeWorkers : Keeps turn turn.wakeWorkers := by
  refine ⟨rfl, fun assignment ⟨worker, hworker, hlive, hassignment⟩ ↦ ?_⟩
  obtain ⟨old, hold, rfl⟩ := List.mem_map.mp hworker
  have hsame : old.wake.isFinished = old.isFinished ∧ old.wake.assignment = old.assignment := by
    unfold Worker.wake
    split
    case isTrue hidle =>
      refine ⟨?_, rfl⟩
      rw [Worker.isFinished, Worker.isFinished, hidle]
      rfl
    case isFalse => exact ⟨rfl, rfl⟩
  exact ⟨old, hold, hsame.1.symm.trans hlive, hsame.2.symm.trans hassignment⟩

theorem keeps_dismiss (worker : Worker) : Keeps turn (turn.dismiss worker) := by
  have hroster : (turn.dismiss worker).world.roster = turn.world.roster :=
    congrArg Worker.Post.roster (Worker.Turn.post_stop ⟨turn.world, turn.engine.facilities, worker⟩)
  exact ⟨congrArg (Connections.mk · _ _) hroster,
    fun _ ⟨other, hother, hlive⟩ ↦ ⟨other, (List.mem_filter.mp hother).1, hlive⟩⟩

theorem keeps_dismissAll (workers : List Worker) : Keeps turn (turn.dismissAll workers) := by
  unfold dismissAll
  induction workers generalizing turn with
  | nil => exact .refl turn
  | cons worker rest ih => exact (keeps_dismiss turn worker).trans (ih (turn.dismiss worker))

/-- A worker that works stays at its post. -/
theorem keeps_runWorker (steps : Nat) (key : QueueKey) : Keeps turn (turn.runWorker steps key) := by
  unfold runWorker
  split
  case h_1 => exact .refl turn
  case h_2 worker hworker =>
    have hpost := Worker.post_run steps ⟨turn.world, turn.engine.facilities, worker⟩
    refine ⟨congrArg (Connections.mk · _ _) (congrArg Worker.Post.roster hpost), ?_⟩
    rintro assignment ⟨other, hother, hlive, rfl⟩
    obtain ⟨old, hold, rfl⟩ := List.mem_map.mp hother
    split at hlive
    case isFalse hkey => exact ⟨old, hold, hlive, by rw [if_neg hkey]⟩
    case isTrue hkey =>
      refine ⟨worker, List.mem_of_find?_eq_some hworker, ?_, ?_⟩
      · rw [← Bool.not_eq_true]
        intro hfinished
        rw [Worker.run_of_isFinished steps hfinished, hfinished] at hlive
        cases hlive
      · rw [if_pos hkey]
        exact (congrArg Worker.Post.assignment hpost).symm

theorem keeps_enqueueAll (file : FileRef) : Keeps turn (turn.enqueueAll file) := by
  unfold enqueueAll
  split
  case h_1 => exact .refl turn
  case h_2 keys _ =>
    apply keeps_of_world
    generalize keys.filter (!·.isRecovered) = keys
    generalize turn.world = world
    induction keys generalizing world with
    | nil => rfl
    | cons key rest ih => exact (ih (world.enqueue key file).2).trans (world.roster_enqueue key file)

theorem keeps_reconcile : Keeps turn turn.reconcile := by
  unfold reconcile
  split
  case h_1 => exact .refl turn
  case h_2 file _ _ => exact keeps_enqueueAll turn file

theorem keeps_onLogEvent (event : LogEvent) : Keeps turn (turn.onLogEvent event) := by
  unfold onLogEvent
  split
  case h_1 file => exact (keeps_enqueueAll turn file).trans (keeps_wakeWorkers _)
  case h_2 => exact keeps_wakeWorkers turn

theorem keeps_claim (node : String) : Keeps turn (turn.claim node) :=
  keeps_of_world turn (congrArg (Roster.mk _) (Failover.Pass.peers_runFor turn.world.registry _ _))

theorem keeps_sweep : Keeps turn turn.sweep :=
  keeps_of_world turn (congrArg (Roster.mk _) (Failover.peers_sweep turn.world.registry _ _))

theorem keeps_coordinate? {after : Turn} (h : turn.coordinate? = some after) : Keeps turn after := by
  have hset (coordinator : Coordinator) : Keeps turn (turn.setCoordinator coordinator) :=
    ⟨rfl, fun _ h ↦ h⟩
  unfold coordinate? at h
  split at h
  case h_1 => cases h
  case h_2 =>
    cases h
    exact (hset _).trans (keeps_sweep _)
  case h_3 =>
    split at h
    case isTrue =>
      cases h
      exact (hset _).trans (keeps_claim _ _)
    case isFalse => cases h
  case h_4 =>
    split at h
    case h_1 => cases h
    case h_2 =>
      cases h
      exact (hset _).trans (keeps_sweep _)
    case h_3 =>
      cases h
      exact (hset _).trans (keeps_sweep _)
    case h_4 =>
      split at h
      case isTrue =>
        cases h
        exact hset _
      case isFalse =>
        cases h
        exact hset _

theorem keeps_setState (state : EngineState) : Keeps turn (turn.setState state) := ⟨rfl, fun _ h ↦ h⟩

theorem keeps_quiesce : Keeps turn turn.quiesce :=
  (keeps_dismissAll turn turn.engine.workers).trans ⟨rfl, fun _ h ↦ h⟩

theorem keeps_halt : Keeps turn turn.halt := (keeps_quiesce turn).trans (keeps_setState _ _)

theorem keeps_shutdown : Keeps turn turn.shutdown :=
  ((keeps_setState turn _).trans (keeps_quiesce _)).trans (keeps_setState _ _)

theorem keeps_dropDrained (farewell : Farewell) (keys : List QueueKey) :
    Keeps turn (turn.dropDrained farewell keys).2 := by
  induction keys generalizing turn farewell with
  | nil => exact .refl turn
  | cons key rest ih =>
    unfold dropDrained
    split
    case h_1 => exact .refl turn
    case h_2 => exact ih turn farewell
    case h_3 queue _ =>
      split
      case isTrue => exact ih turn _
      case isFalse =>
        have hroster := turn.world.roster_dropQueue key
        split
        case h_1 error world hdrop =>
          rw [hdrop] at hroster
          exact keeps_of_world turn hroster
        case h_2 dropped world hdrop =>
          rw [hdrop] at hroster
          exact (keeps_of_world turn hroster).trans (ih { turn with world } _)

theorem keeps_decommission : Keeps turn turn.decommission.2 := by
  have hquiesced : Keeps turn (turn.setState .shuttingDown).quiesce :=
    (keeps_setState turn _).trans (keeps_quiesce _)
  unfold decommission
  dsimp only
  split
  case h_1 => exact hquiesced
  case h_2 keys _ =>
    have hdropped := hquiesced.trans (keeps_dropDrained _ ⟨[], []⟩ keys)
    split
    case h_1 error after hanswer =>
      rw [hanswer] at hdropped
      exact hdropped
    case h_2 farewell after hanswer =>
      rw [hanswer] at hdropped
      exact hdropped.trans (keeps_setState after .stopped)

end Frame

/-! ## Starting workers -/

section Start

variable {turn after : Turn}

theorem extends_sinkFor {peer : Peer} (hpeer : turn.world.registry.peer? peer.id = some peer) :
    Extends turn (turn.sinkFor peer).2 := by
  unfold sinkFor
  split
  case h_1 => exact (Keeps.refl turn).extends
  case h_2 habsent =>
    dsimp only
    split
    case h_1 sink hconnect =>
      constructor
      case roster => rfl
      case settings => rfl
      case kept =>
        intro other held hheld
        show List.lookup other ((peer.id, sink) :: turn.engine.sinks) = some held
        have hne : (other == peer.id) = false := by
          rw [beq_eq_false_iff_ne]
          rintro rfl
          rw [sink?, habsent] at hheld
          cases hheld
        rw [List.lookup_cons, hne]
        exact hheld
      case connected =>
        intro other held hheld
        change List.lookup other ((peer.id, sink) :: turn.engine.sinks) = some held at hheld
        rw [List.lookup_cons] at hheld
        cases hother : other == peer.id with
        | false =>
          rw [hother] at hheld
          exact .inl hheld
        | true =>
          rw [hother] at hheld
          obtain rfl : sink = held := Option.some.inj hheld
          obtain rfl : other = peer.id := beq_iff_eq.mp hother
          obtain ⟨entry, hentry, hcached⟩ := Option.map_eq_some_iff.mp hpeer
          exact .inr ⟨habsent, entry, hentry, by rw [hcached]; exact hconnect⟩
      case workers => exact fun assignment h ↦ .inl h
    case h_2 => exact Keeps.extends ⟨rfl, fun _ h ↦ h⟩

/-- The sink a worker gets is held from then on. -/
theorem sink?_sinkFor {peer : Peer} {sink : Sink} (h : turn.sinkFor peer = (.ok sink, after)) :
    after.sink? peer.id = some sink := by
  unfold sinkFor at h
  split at h
  case h_1 held hheld =>
    cases h
    exact hheld
  case h_2 =>
    dsimp only at h
    split at h
    case h_1 =>
      cases h
      exact List.lookup_cons_self
    case h_2 => cases h

theorem extends_spawn (turn : Turn) (key : QueueKey) : Extends turn (turn.spawn key) := by
  unfold spawn
  split
  case h_2 => exact (Keeps.refl turn).extends
  case h_1 peer gate hpeer hgate =>
    split
    case isTrue => exact (Keeps.refl turn).extends
    case isFalse =>
      obtain ⟨entry, hentry, rfl⟩ := Option.map_eq_some_iff.mp hpeer
      have hname : entry.peer.id = key.peer := Registry.id_of_cached? hentry
      have hconnected : Extends turn (turn.sinkFor entry.peer).2 :=
        extends_sinkFor (by rw [hname]; exact hpeer)
      split
      case h_1 error between hsink =>
        rw [hsink] at hconnected
        exact hconnected.trans (keeps_removeWorker between key).extends
      case h_2 sink between hsink =>
        rw [hsink] at hconnected
        refine hconnected.trans ⟨rfl, rfl, fun _ _ h ↦ h, fun _ _ h ↦ .inl h, ?_⟩
        rintro assignment ⟨worker, hworker, hlive, rfl⟩
        rcases List.mem_append.mp hworker with hold | hnew
        · exact .inl ⟨worker, (List.mem_filter.mp hold).1, hlive, rfl⟩
        · obtain rfl := List.mem_singleton.mp hnew
          refine .inr ⟨⟨entry, (entry?_congr hconnected.roster _).trans hentry, ?_⟩, ?_⟩
          · rw [Registry.gate?, hentry] at hgate
            exact (Option.some.inj hgate).symm
          · show between.sink? key.peer = some sink
            rw [← hname]
            exact sink?_sinkFor hsink

theorem extends_ensureQueue (turn : Turn) (peer : String) : Extends turn (turn.ensureQueue peer).2 := by
  have hroster := turn.world.roster_createQueue (.own turn.engine.node peer)
    (turn.world.activeLog turn.engine.node)
  unfold ensureQueue
  dsimp only
  split
  case h_1 error world hcreate =>
    rw [hcreate] at hroster
    exact (keeps_of_world turn hroster).extends
  case h_2 answer world hcreate =>
    rw [hcreate] at hroster
    exact (keeps_of_world turn hroster).extends_trans (extends_spawn _ _)

theorem extends_ensureQueues (turn : Turn) (peers : List Peer) :
    Extends turn (turn.ensureQueues peers).2 := by
  induction peers generalizing turn with
  | nil => exact (Keeps.refl turn).extends
  | cons peer rest ih =>
    unfold ensureQueues
    split
    case isTrue => exact ih turn
    case isFalse =>
      have hfirst := extends_ensureQueue turn peer.id
      split
      case h_1 answer after hanswer =>
        rw [hanswer] at hfirst
        exact hfirst.trans (ih after)
      case h_2 error after hanswer =>
        rw [hanswer] at hfirst
        exact hfirst

theorem extends_adopt (turn : Turn) (keys : List QueueKey) : Extends turn (turn.adopt keys).2 := by
  induction keys generalizing turn with
  | nil => exact (Keeps.refl turn).extends
  | cons key rest ih =>
    unfold adopt
    split
    case isTrue => exact (extends_spawn turn key).trans (ih (turn.spawn key))
    case isFalse =>
      have hroster := turn.world.roster_dropQueue key
      split
      case h_1 answer world hdrop =>
        rw [hdrop] at hroster
        exact (keeps_of_world turn hroster).extends_trans (ih { turn with world })
      case h_2 error world hdrop =>
        rw [hdrop] at hroster
        exact (keeps_of_world turn hroster).extends

theorem extends_adoptOwned (turn : Turn) : Extends turn turn.adoptOwned.2 := by
  unfold adoptOwned
  split
  case h_1 => exact (Keeps.refl turn).extends
  case h_2 keys _ => exact extends_adopt turn keys

theorem extends_sync (turn : Turn) : Extends turn turn.sync.2 := by
  have hensured := extends_ensureQueues turn turn.world.registry.peers
  unfold sync
  split
  case h_1 error after hanswer =>
    rw [hanswer] at hensured
    exact hensured
  case h_2 answer after hanswer =>
    rw [hanswer] at hensured
    exact hensured.trans (extends_adoptOwned after)

theorem extends_onQueueEvent (turn : Turn) (event : QueueEvent) :
    Extends turn (turn.onQueueEvent event) := by
  unfold onQueueEvent
  split
  case h_1 =>
    split
    case isTrue => exact extends_spawn turn _
    case isFalse => exact (Keeps.refl turn).extends
  case h_2 =>
    split
    case isTrue => exact extends_spawn turn _
    case isFalse => exact (Keeps.refl turn).extends
  case h_3 =>
    split
    case isTrue =>
      split
      case h_1 worker _ => exact (keeps_dismiss turn worker).extends
      case h_2 => exact (Keeps.refl turn).extends
    case isFalse => exact (Keeps.refl turn).extends

theorem extends_start (turn : Turn) : Extends turn turn.start.2 := by
  have hsynced := (keeps_setState turn .starting).extends_trans (extends_sync (turn.setState .starting))
  unfold start
  split
  case isTrue => exact (Keeps.refl turn).extends
  case isFalse =>
    dsimp only
    split
    case h_1 error after hanswer =>
      rw [hanswer] at hsynced
      exact hsynced.trans (keeps_setState after .failed).extends
    case h_2 answer after hanswer =>
      rw [hanswer] at hsynced
      exact hsynced.trans (Keeps.extends ⟨rfl, fun _ h ↦ h⟩)

/-- A peer that is added through an engine is added to the table first. -/
theorem extends_addPeer (turn : Turn) (id connection : String) :
    Extends ⟨(turn.world.addPeer id connection).2, turn.engine⟩ (turn.addPeer id connection).2 := by
  unfold addPeer
  split
  case h_1 error world hadd =>
    rw [hadd]
    exact (Keeps.refl _).extends
  case h_2 peer world hadd =>
    have hensured := extends_ensureQueue { turn with world } id
    rw [hadd]
    dsimp only
    split
    case isTrue =>
      split
      case h_1 answer after hanswer =>
        rw [hanswer] at hensured
        exact hensured
      case h_2 error after hanswer =>
        rw [hanswer] at hensured
        exact hensured
    case isFalse => exact (Keeps.refl _).extends

/-- An engine that looks after itself refreshes the registry first. -/
theorem extends_poll (turn : Turn) : Extends ⟨turn.world.refresh.2, turn.engine⟩ turn.poll := by
  have hreaped := keeps_reap ⟨turn.world.refresh.2, turn.engine⟩
    (turn.world.now + turn.engine.settings.settings.source.pollEvery)
  exact (hreaped.extends_trans (extends_sync _)).trans (keeps_reconcile _).extends

end Start

/-! ## Ending the work for a peer -/

section End

variable {turn after : Turn}

/-- What is kept by name is found by name. -/
theorem lookup_filter_name (keep : String → Bool) (sinks : List (String × Sink)) (peer : String) :
    (sinks.filter (keep ·.1)).lookup peer = if keep peer then sinks.lookup peer else none := by
  induction sinks with
  | nil => exact (ite_self none).symm
  | cons first rest ih =>
    obtain ⟨name, sink⟩ := first
    rw [List.filter_cons]
    by_cases hname : peer = name
    · subst hname
      cases hkeep : keep peer <;> simp [hkeep, ih]
    · have hother : (peer == name) = false := beq_eq_false_iff_ne.mpr hname
      cases hkeep : keep name <;> simp [List.lookup_cons, hother, ih]

theorem tends_removePeerQueues (turn : Turn) (peer : String) :
    Tends turn (turn.removePeerQueues peer) := by
  apply (keeps_dismissAll turn (turn.engine.workers.filter (·.key.peer == peer))).tends_trans
  unfold removePeerQueues
  generalize turn.dismissAll (turn.engine.workers.filter (·.key.peer == peer)) = dismissed
  -- Whether the queues are dropped too makes no difference to the sinks.
  have hgiven {world : World} (hroster : world.roster = dismissed.world.roster) :
      Tends dismissed ⟨world, { dismissed.engine with
        facilities := { dismissed.engine.facilities with
          circuits := dismissed.engine.facilities.circuits.remove peer }
        sinks := dismissed.engine.sinks.filter (·.1 != peer) }⟩ := by
    refine ⟨hroster, rfl, fun other sink hsink ↦ .inl ?_, fun _ h ↦ .inl h⟩
    change (dismissed.engine.sinks.filter (·.1 != peer)).lookup other = some sink at hsink
    rw [lookup_filter_name (· != peer)] at hsink
    split at hsink
    case isTrue => exact hsink
    case isFalse => cases hsink
  dsimp only
  split
  case isTrue => exact hgiven rfl
  case isFalse =>
    split
    case h_1 => exact hgiven rfl
    case h_2 keys _ =>
      apply hgiven
      generalize keys.filter (·.peer == peer) = keys
      generalize dismissed.world = world
      induction keys generalizing world with
      | nil => rfl
      | cons key rest ih => exact (ih (world.dropQueue key).2).trans (world.roster_dropQueue key)

theorem tends_onPeerEvent (turn : Turn) (event : PeerEvent) : Tends turn (turn.onPeerEvent event) := by
  unfold onPeerEvent
  split
  case h_1 peer =>
    split
    case isTrue => exact (extends_ensureQueue turn peer.id).tends
    case isFalse => exact (Keeps.refl turn).extends.tends
  case h_2 peer =>
    split
    case isTrue => exact (Keeps.refl turn).extends.tends
    case isFalse => exact tends_removePeerQueues turn peer
  case h_3 => exact (Keeps.refl turn).extends.tends
  case h_4 => exact (Keeps.refl turn).extends.tends

/-- A peer that is removed through an engine is removed from the table first. -/
theorem tends_removePeer (turn : Turn) (id : String) :
    Tends ⟨(turn.world.removePeer id).2, turn.engine⟩ (turn.removePeer id).2 := by
  unfold removePeer
  split
  case h_1 error world hremove =>
    rw [hremove]
    exact (Keeps.refl _).extends.tends
  case h_2 answer world hremove =>
    rw [hremove]
    dsimp only
    split
    case isTrue => exact tends_removePeerQueues { turn with world } id
    case isFalse => exact (Keeps.refl _).extends.tends

/-- Whatever notice an engine takes, it tends its sinks. -/
theorem tends_nextEvent? (h : turn.nextEvent? = some after) : Tends turn after := by
  have hplaces (places : Places) : Keeps turn (turn.setPlaces places) := ⟨rfl, fun _ h ↦ h⟩
  unfold nextEvent? at h
  split at h
  case h_1 => cases h
  case h_2 places _ =>
    rcases Option.or_eq_some_iff.mp h with hpeer | ⟨-, hrest⟩
    · unfold nextPeerEvent? at hpeer
      split at hpeer
      case h_1 => cases hpeer
      case h_2 event place _ =>
        cases hpeer
        exact (hplaces _).tends_trans (tends_onPeerEvent _ event)
      case h_3 =>
        cases hpeer
        exact ((hplaces _).extends_trans (extends_sync _)).tends
    · rcases Option.or_eq_some_iff.mp hrest with hqueue | ⟨-, hlog⟩
      · unfold nextQueueEvent? at hqueue
        split at hqueue
        case h_1 => cases hqueue
        case h_2 event place _ =>
          cases hqueue
          exact ((hplaces _).extends_trans (extends_onQueueEvent _ event)).tends
        case h_3 =>
          cases hqueue
          exact ((hplaces _).extends_trans (extends_adoptOwned _)).tends
      · unfold nextLogEvent? at hlog
        split at hlog
        case h_1 => cases hlog
        case h_2 event place _ =>
          cases hlog
          exact ((hplaces _).trans (keeps_onLogEvent _ event)).extends.tends
        case h_3 =>
          cases hlog
          exact ((hplaces _).trans ((keeps_reconcile _).trans (keeps_wakeWorkers _))).extends.tends

end End

end LogShipping.Engine
