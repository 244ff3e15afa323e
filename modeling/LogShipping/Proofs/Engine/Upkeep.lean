import LogShipping.Proofs.Engine.Deeds
import LogShipping.Proofs.Peer.Refresh
import LogShipping.Proofs.Worker.Holdings

/-!
# What becomes of the queues for one peer

A deed of an engine leaves the node's log alone and the peer table too, and what the registry holds for a
peer changes only when it is brought up to the table. It carries out one operation on one queue at most, and
which one depends on that registry: a queue is created for a peer that is there, and dropped for one that is
not. So once a node has no queue and no worker left for a peer that is gone, this stays so as long as the
peer is gone.
-/

namespace LogShipping

open QueueTables

/-! ## The log of a node -/

theorem Feed.mem_kept_announce {α : Type} {feed : Feed α} {notice value : α}
    (h : value ∈ (feed.announce notice).kept) : value ∈ feed.kept ∨ value = notice := by
  unfold announce at h
  simpa using List.mem_of_mem_drop h

namespace Storage

variable {storage after : Storage} {mark : LogPosition}

/-- The numbers of the files that were begun are behind the next one. -/
structure Ordered (storage : Storage) : Prop where
  bound : storage.next.toNat ≤ 1 <<< 63
  active : ∀ file committed, storage.active = some (file, committed) → file.seq < storage.next
  told : ∀ file, .rolled file ∈ storage.feed.kept → file.seq < storage.next

/-- The node goes on with its log. -/
inductive Writes : Storage → Storage → Prop
  | roll (storage : Storage) (node : String) (silent : Bool) (hnext : storage.next.toNat < 1 <<< 63) :
      Writes storage (storage.roll node silent).2
  | commit (storage : Storage) (length : Nat)
      (hlength : ∀ file committed, storage.active = some (file, committed) → committed ≤ length) :
      Writes storage (storage.commit length)

/-- What is committed of the log ends at the mark or behind it. -/
def EndsBehind (mark : LogPosition) (storage : Storage) : Prop :=
  ∃ file committed, storage.active = some (file, committed) ∧ LogPosition.Behind ⟨file.seq, committed⟩ mark

theorem toNat_succ_next (storage : Storage) (hnext : storage.next.toNat < 1 <<< 63) :
    (storage.next + 1).toNat = storage.next.toNat + 1 := by
  rw [UInt64.toNat_add]
  exact Nat.mod_eq_of_lt (by simp at hnext ⊢; omega)

theorem next_lt_succ (storage : Storage) (hnext : storage.next.toNat < 1 <<< 63) :
    storage.next < storage.next + 1 := by
  rw [UInt64.lt_iff_toNat_lt, storage.toNat_succ_next hnext]
  exact Nat.lt_succ_self _

theorem Ordered.writes (h : storage.Ordered) (hwrites : Writes storage after) : after.Ordered := by
  cases hwrites with
  | roll node silent hnext =>
    have hlater := storage.toNat_succ_next hnext
    have hlt := storage.next_lt_succ hnext
    refine ⟨hlater ▸ hnext, fun file committed hactive ↦ ?_, fun file hfile ↦ ?_⟩
    · cases hactive
      exact hlt
    · unfold roll at hfile
      dsimp only at hfile
      split at hfile
      case isTrue => exact UInt64.lt_trans (h.told file hfile) hlt
      case isFalse =>
        rcases Feed.mem_kept_announce hfile with hold | hnew
        · exact UInt64.lt_trans (h.told file hold) hlt
        · cases hnew
          exact hlt
  | commit length =>
    unfold commit
    split
    case h_1 => exact h
    case h_2 writing committed hactive =>
      refine ⟨h.bound, fun file committed hfile ↦ ?_, fun file hfile ↦ ?_⟩
      · cases hfile
        exact h.active _ _ hactive
      · rcases Feed.mem_kept_announce hfile with hold | hnew
        · exact h.told file hold
        · cases hnew

theorem EndsBehind.writes (h : storage.EndsBehind mark) (hordered : storage.Ordered)
    (hwrites : Writes storage after) : after.EndsBehind mark := by
  obtain ⟨file, committed, hactive, hbehind⟩ := h
  cases hwrites with
  | roll node silent => exact ⟨_, 0, rfl, hbehind.of_lt (hordered.active file committed hactive) 0⟩
  | commit length hlength =>
    refine ⟨file, length, ?_, hbehind.of_le (hlength file committed hactive)⟩
    unfold commit
    rw [hactive]

end Storage

/-! ## Changes of the peer table -/

namespace Registry

/-- The peer that is added or removed. -/
def Change.subject? : Change → Option String
  | add id _ => some id
  | remove id => some id
  | setEnabled .. => none
  | setReplicating _ => none

variable (registry : Registry) (database : Database)

/-- A change is announced as what it is. -/
theorem subject?_of_mem_make {change : Change} {event : PeerEvent}
    (h : event ∈ (registry.make database change).events) : event.subject? = change.subject? := by
  cases change with
  | add id connection =>
    simp only [make, addPeer, refuse, Reply.effect] at h
    split at h
    case isTrue => cases h
    case isFalse =>
      split at h
      case isTrue => cases h
      case isFalse => exact List.mem_singleton.mp h ▸ rfl
  | remove id =>
    simp only [make, removePeer, refuse, Reply.effect] at h
    split at h
    case isTrue => cases h
    case isFalse =>
      split at h
      case isTrue => cases h
      case isFalse => exact List.mem_singleton.mp h ▸ rfl
  | setEnabled id enabled =>
    simp only [make, setPeerEnabled, refuse, Reply.effect] at h
    split at h
    case isTrue => cases h
    case isFalse =>
      split at h
      case isTrue => cases h
      case isFalse => exact List.mem_singleton.mp h ▸ rfl
  | setReplicating on =>
    simp only [make, setReplicating, refuse, Reply.effect] at h
    split at h
    case isTrue => cases h
    case isFalse =>
      split at h
      case isTrue => cases h
      case isFalse => exact List.mem_singleton.mp h ▸ rfl

theorem queues_make (change : Change) : (registry.make database change).database.queues = database.queues := by
  rcases database_make_cases registry database change with hsame | hmade
  · rw [hsame]
  · cases change with
    | add id connection => rw [hmade.2]
    | remove id => rw [hmade]
    | setEnabled id enabled => rw [hmade]
    | setReplicating on => rw [hmade]

end Registry

theorem World.storages_changePeers (world : World) (change : Registry.Change) :
    (world.changePeers change).storages = world.storages := by
  cases change with
  | add id connection =>
    obtain ⟨measures, hworld⟩ :=
      countChange_snd "added" (world.settlePeers (world.registry.addPeer world.database id connection))
    have hstorages := congrArg World.storages hworld
    exact hstorages
  | remove id =>
    obtain ⟨measures, hworld⟩ :=
      countChange_snd "removed" (world.settlePeers (world.registry.removePeer world.database id))
    have hstorages := congrArg World.storages hworld
    exact hstorages
  | setEnabled id enabled =>
    obtain ⟨measures, hworld⟩ := countChange_snd (if enabled then "enabled" else "disabled")
      (world.settlePeers (world.registry.setPeerEnabled world.database id enabled))
    have hstorages := congrArg World.storages hworld
    exact hstorages
  | setReplicating on => rfl

namespace Engine

/-! ## What a deed leaves -/

namespace Turn

variable {turn after : Turn} {peer : String}

def tables (turn : Turn) : QueueTables := turn.world.database.queues

/-- The storage of the node. -/
def log (turn : Turn) : Storage := turn.world.storage turn.engine.node

/-- The registry's cache holds the peer. -/
def Knows (turn : Turn) (peer : String) : Prop := turn.world.registry.contains peer = true

/-- The peer is in the table. -/
def Lists (turn : Turn) (peer : String) : Prop := (turn.world.database.peer? peer).isSome = true

instance (turn : Turn) (peer : String) : Decidable (turn.Knows peer) := inferInstanceAs (Decidable (_ = true))

instance (turn : Turn) (peer : String) : Decidable (turn.Lists peer) := inferInstanceAs (Decidable (_ = true))

/-- The queue is one of the node's for the peer. -/
def Local (turn : Turn) (peer : String) (key : QueueKey) : Prop :=
  key.owner = turn.engine.node ∧ key.peer = peer

theorem local_own (turn : Turn) (peer : String) : turn.Local peer (turn.own peer) := ⟨rfl, rfl⟩

/-- The log goes on or stays, the peer is in the table or not as before, and the cache may have been brought
up to it. -/
structure Goes (peer : String) (turn after : Turn) : Prop where
  node : after.engine.node = turn.engine.node
  log : after.log = turn.log ∨ turn.log.Writes after.log
  table : after.Lists peer ↔ turn.Lists peer
  cache : (after.Knows peer ↔ turn.Knows peer) ∨ (after.Knows peer ↔ turn.Lists peer)

theorem Goes.own (h : Goes peer turn after) (other : String) : after.own other = turn.own other :=
  congrArg (QueueKey.own · other) h.node

theorem Goes.local_iff (h : Goes peer turn after) {key : QueueKey} :
    after.Local peer key ↔ turn.Local peer key := by
  constructor
  · exact fun hlocal ↦ ⟨hlocal.1.trans h.node, hlocal.2⟩
  · exact fun hlocal ↦ ⟨hlocal.1.trans h.node.symm, hlocal.2⟩

/-- Neither the log nor the peers are touched. -/
theorem goes_of_roster_eq (hnode : after.engine.node = turn.engine.node)
    (hstorages : after.world.storages = turn.world.storages)
    (hroster : after.world.roster = turn.world.roster) : Goes peer turn after := by
  have hregistry : after.world.registry = turn.world.registry := congrArg Roster.registry hroster
  have hpeers : after.world.database.peers = turn.world.database.peers := congrArg Roster.peers hroster
  refine ⟨hnode, .inl ?_, ?_, .inl ?_⟩
  · unfold log World.storage
    rw [hnode, hstorages]
  · unfold Turn.Lists Database.peer?
    rw [hpeers]
  · unfold Knows
    rw [hregistry]

theorem Goes.unknown (h : Goes peer turn after) (htable : ¬turn.Lists peer) (hcache : ¬turn.Knows peer) :
    ¬after.Knows peer := fun hknows ↦ h.cache.elim (fun hsame ↦ hcache (hsame.mp hknows))
  fun htold ↦ htable (htold.mp hknows)

theorem Goes.knows (h : Goes peer turn after) (htable : turn.Lists peer) (hknows : turn.Knows peer) :
    after.Knows peer :=
  h.cache.elim (fun hsame ↦ hsame.mpr hknows) fun htold ↦ htold.mpr htable

theorem Goes.endsBehind (h : Goes peer turn after) {mark : LogPosition} (hordered : turn.log.Ordered)
    (hlog : turn.log.EndsBehind mark) : after.log.EndsBehind mark := by
  rcases h.log with hsame | hwrites
  · exact hsame ▸ hlog
  · exact hlog.writes hordered hwrites

/-- A new engine of the node. -/
theorem goes_restart (turn : Turn) {engine : Engine} (hnode : engine.node = turn.engine.node) :
    Goes peer turn { turn with engine } := goes_of_roster_eq hnode rfl rfl

/-- What a deed may do to the queues. -/
inductive Treats (turn : Turn) : Operation → Prop
  | create (peer : String) (hpeer : turn.Knows peer) :
      Treats turn (.create (turn.own peer) turn.log.active)
  | enqueue (key : QueueKey) {file : FileRef} (hfile : turn.Told file) : Treats turn (.enqueue key file)
  | drop (key : QueueKey) (hpeer : ¬turn.Knows key.peer) : Treats turn (.drop key)

end Turn

/-- A worker that wakes up has nothing more in hand than before. -/
theorem phase_wake (worker : Worker) :
    worker.wake.key = worker.key ∧ (worker.wake.phase = worker.phase ∨ worker.wake.phase = .ready) := by
  unfold Worker.wake
  split
  case isTrue => exact ⟨rfl, .inr rfl⟩
  case isFalse => exact ⟨rfl, .inl rfl⟩

open Turn

namespace Deed

variable {turn after : Turn} {peer : String}

theorem goes (h : Deed turn after) (peer : String) : Goes peer turn after := by
  cases h with
  | books hworld hsettings =>
    obtain ⟨measures, hworld⟩ := hworld
    exact goes_of_roster_eq (congrArg NodeSettings.node hsettings) (by rw [hworld]) (by rw [hworld]; rfl)
  | recruit | forget | wake | reap => exact goes_of_roster_eq rfl rfl rfl
  | dismiss worker =>
    exact goes_of_roster_eq rfl (Worker.Turn.storages_stop ⟨turn.world, turn.engine.facilities, worker⟩)
      (congrArg Worker.Post.roster (Worker.Turn.post_stop ⟨turn.world, turn.engine.facilities, worker⟩))
  | create other =>
    refine goes_of_roster_eq rfl ?_ (World.roster_createQueue _ _ _)
    rcases turn.world.createQueue_cases (turn.own other) (turn.world.activeLog turn.engine.node) with
      ⟨feed, hcreate⟩ | ⟨error, hcreate, -⟩
    · rw [hcreate]
      rfl
    · rw [hcreate]
  | drop key =>
    refine goes_of_roster_eq rfl ?_ (World.roster_dropQueue _ _)
    rcases turn.world.dropQueue_cases key with ⟨feed, hdrop⟩ | ⟨error, hdrop, -⟩
    · rw [hdrop]
      rfl
    · rw [hdrop]
  | enqueue key hfile =>
    rename_i file
    refine goes_of_roster_eq rfl ?_ (World.roster_enqueue _ _ _)
    rcases turn.world.enqueue_cases key file with ⟨queues, -, henqueue⟩ | ⟨error, henqueue, -⟩
    · rw [henqueue]
      rfl
    · rw [henqueue]
  | refresh =>
    have hdatabase : turn.world.refresh.2.database = turn.world.database :=
      Registry.database_refresh turn.world.registry turn.world.database
    refine ⟨rfl, .inl rfl, ?_, ?_⟩
    · unfold Turn.Lists
      rw [hdatabase]
    · by_cases hup : turn.world.database.reachable = true
      · right
        unfold Knows Turn.Lists
        rw [← Registry.contains_refresh turn.world.registry hup peer]
        exact Iff.rfl
      · left
        unfold Knows World.refresh World.settlePeers Registry.refresh
        rw [if_pos (by simpa using hup)]
        exact Iff.rfl

/-- One operation on the queues is carried out, or none. -/
theorem tables (h : Deed turn after) : after.tables = turn.tables ∨
    ∃ operation, turn.Treats operation ∧ turn.tables.perform operation = .ok after.tables := by
  cases h with
  | books hworld =>
    obtain ⟨measures, hworld⟩ := hworld
    unfold Turn.tables
    rw [hworld]
    exact .inl rfl
  | recruit | forget | wake | reap => exact .inl rfl
  | dismiss worker => exact .inl (congrArg Ground.queues (ground_dismiss turn worker))
  | create other hpeer =>
    rcases turn.world.createQueue_cases (turn.own other) (turn.world.activeLog turn.engine.node) with
      ⟨feed, hcreate⟩ | ⟨error, hcreate, -⟩
    · refine .inr ⟨_, .create other hpeer, ?_⟩
      unfold Turn.tables
      rw [hcreate]
      rfl
    · refine .inl ?_
      unfold Turn.tables
      rw [hcreate]
  | drop key hpeer =>
    rcases turn.world.dropQueue_cases key with ⟨feed, hdrop⟩ | ⟨error, hdrop, -⟩
    · refine .inr ⟨_, .drop key (Bool.eq_false_iff.mp hpeer), ?_⟩
      unfold Turn.tables
      rw [hdrop]
      rfl
    · refine .inl ?_
      unfold Turn.tables
      rw [hdrop]
  | enqueue key hfile =>
    rename_i file
    rcases turn.world.enqueue_cases key file with ⟨queues, hok, henqueue⟩ | ⟨error, henqueue, -⟩
    · refine .inr ⟨_, .enqueue key hfile, ?_⟩
      unfold Turn.tables
      rw [henqueue]
      exact hok
    · refine .inl ?_
      unfold Turn.tables
      rw [henqueue]
  | refresh =>
    exact .inl (congrArg Database.queues (Registry.database_refresh turn.world.registry turn.world.database))

/-- Workers stay or wake up, and those that are started have nothing in hand. -/
theorem workers (h : Deed turn after) {worker : Worker} (hworker : worker ∈ after.engine.workers) :
    (∃ old ∈ turn.engine.workers, worker = old ∨ worker = old.wake) ∨
      worker.phase = .ready ∧ turn.Knows worker.key.peer := by
  have hstays (h : worker ∈ turn.engine.workers) :
      ∃ old ∈ turn.engine.workers, worker = old ∨ worker = old.wake := ⟨worker, h, .inl rfl⟩
  cases h with
  | books _ _ hworkers => exact .inl (hstays (hworkers ▸ hworker))
  | recruit key sink circuit gate _ hgate =>
    rcases List.mem_append.mp hworker with hold | hnew
    · exact .inl (hstays (List.mem_of_mem_filter hold))
    · obtain rfl := List.mem_singleton.mp hnew
      refine .inr ⟨rfl, ?_⟩
      obtain ⟨entry, hentry, -⟩ := Option.map_eq_some_iff.mp hgate
      unfold Turn.Knows Registry.contains
      show (turn.world.registry.cached? key.peer).isSome = true
      rw [hentry]
      rfl
  | forget | dismiss | reap => exact .inl (hstays (List.mem_of_mem_filter hworker))
  | wake =>
    obtain ⟨old, hold, rfl⟩ := List.mem_map.mp hworker
    exact .inl ⟨old, hold, .inr rfl⟩
  | create | drop | enqueue | refresh => exact .inl (hstays hworker)

end Deed

namespace Turn

variable {turn after : Turn} {peer : String}

/-! ## Worker steps -/

/-- Where a worker leaves the engine. -/
def worked (turn : Turn) (worker : Worker) : Turn :=
  turn.resume (Worker.step ⟨turn.world, turn.engine.facilities, worker⟩)

theorem goes_worked (turn : Turn) (worker : Worker) (peer : String) : Goes peer turn (turn.worked worker) :=
  goes_of_roster_eq rfl (Worker.Turn.storages_step ⟨turn.world, turn.engine.facilities, worker⟩)
    (congrArg Worker.Post.roster (Worker.Turn.post_step ⟨turn.world, turn.engine.facilities, worker⟩))

theorem key_worked (turn : Turn) (worker : Worker) :
    (Worker.step ⟨turn.world, turn.engine.facilities, worker⟩).worker.key = worker.key :=
  congrArg (·.assignment.key) (Worker.Turn.post_step ⟨turn.world, turn.engine.facilities, worker⟩)

theorem tables_worked (turn : Turn) (worker : Worker) : (turn.worked worker).tables = turn.tables ∨
    ∃ operation, operation.subject? = some worker.key ∧
      (operation = .drop worker.key → worker.phase = .dropping) ∧
      turn.tables.perform operation = .ok (turn.worked worker).tables :=
  Worker.Turn.tables_step ⟨turn.world, turn.engine.facilities, worker⟩

/-- The other queues look the same. -/
theorem same_worked (turn : Turn) {worker : Worker} {key : QueueKey} (hne : key ≠ worker.key) :
    Same key turn.tables (turn.worked worker).tables := by
  rcases turn.tables_worked worker with hsame | ⟨operation, hsubject, -, hok⟩
  · exact hsame ▸ .refl key turn.tables
  · exact same_of_ne hok hsubject hne

/-- The other workers stay as they are. -/
theorem mem_worked {worker other : Worker} (h : other ∈ (turn.worked worker).engine.workers) :
    (other.key = worker.key ∧ other = (Worker.step ⟨turn.world, turn.engine.facilities, worker⟩).worker) ∨
      (other.key ≠ worker.key ∧ other ∈ turn.engine.workers) := by
  have hkey := key_worked turn worker
  obtain ⟨old, hold, rfl⟩ := List.mem_map.mp h
  by_cases hsame : old.key = (Worker.step ⟨turn.world, turn.engine.facilities, worker⟩).worker.key
  · rw [if_pos hsame]
    exact .inl ⟨hkey, rfl⟩
  · rw [if_neg hsame]
    exact .inr ⟨hkey ▸ hsame, hold⟩

/-! ## Changes of the world -/

/-- What happens elsewhere lets the node's log go on at most, and is nothing to the node's queues for the
peer, nor to whether the peer is in the table. -/
structure Apart (peer : String) (turn : Turn) (world : World) : Prop where
  goes : Goes peer turn { turn with world }
  same : ∀ key, turn.Local peer key → Same key turn.tables world.database.queues
  wellFormed : turn.tables.WellFormed → world.database.queues.WellFormed

/-- Another peer is added, removed or changed. -/
theorem apart_changePeers (turn : Turn) (change : Registry.Change) (hother : change.subject? ≠ some peer) :
    turn.Apart peer (turn.world.changePeers change) := by
  obtain ⟨hregistry, hdatabase⟩ := turn.world.changePeers_eq change
  have honest := Registry.Effect.Honest.make turn.world.registry turn.world.database change
  have hnothing : Registry.lastTold? (turn.world.registry.make turn.world.database change).events peer =
      none := by
    refine Registry.lastTold?_eq_none_iff.mpr fun event hevent ↦ ?_
    rw [Registry.subject?_of_mem_make _ _ hevent]
    exact hother
  have hqueues : (turn.world.changePeers change).database.queues = turn.tables :=
    (congrArg Database.queues hdatabase).trans (Registry.queues_make _ _ change)
  refine ⟨⟨rfl, .inl ?_, ?_, .inl ?_⟩, fun key _ ↦ hqueues ▸ .refl key turn.tables, fun wf ↦ hqueues ▸ wf⟩
  · unfold log World.storage
    rw [World.storages_changePeers]
  · unfold Turn.Lists
    rw [hdatabase, honest.table, hnothing, Option.getD_none]
  · unfold Knows
    rw [hregistry, honest.cache, hnothing, Option.getD_none]

/-! ## Tables and log in order -/

structure Sound (turn : Turn) : Prop where
  wellFormed : turn.tables.WellFormed
  ordered : turn.log.Ordered

theorem Sound.goes (h : turn.Sound) (hgoes : Goes peer turn after) (hwf : after.tables.WellFormed) :
    after.Sound where
  wellFormed := hwf
  ordered := by
    rcases hgoes.log with hsame | hwrites
    · exact hsame ▸ h.ordered
    · exact h.ordered.writes hwrites

theorem Sound.deed (h : turn.Sound) (hdeed : Deed turn after) : after.Sound := by
  refine h.goes (hdeed.goes "") ?_
  rcases hdeed.tables with hsame | ⟨operation, -, hok⟩
  · exact hsame ▸ h.wellFormed
  · exact h.wellFormed.perform operation hok

theorem Sound.worked (h : turn.Sound) (worker : Worker) : (turn.worked worker).Sound := by
  refine h.goes (goes_worked turn worker "") ?_
  rcases turn.tables_worked worker with hsame | ⟨operation, -, -, hok⟩
  · exact hsame ▸ h.wellFormed
  · exact h.wellFormed.perform operation hok

theorem Sound.apart (h : turn.Sound) {world : World} (hapart : turn.Apart peer world) :
    Sound { turn with world } := h.goes hapart.goes (hapart.wellFormed h.wellFormed)

/-! ## Nothing left for a peer -/

/-- The node has neither a queue nor a worker for the peer. -/
structure Bare (peer : String) (turn : Turn) : Prop where
  queues : ∀ key, turn.Local peer key → turn.tables.offset? key = none
  workers : ∀ worker ∈ turn.engine.workers, ¬turn.Local peer worker.key

/-- No queue appears as long as the cache lacks the peer. -/
theorem Treats.absent (hgone : ¬turn.Knows peer) {operation : Operation} (htreats : turn.Treats operation)
    {tables : QueueTables} (hok : turn.tables.perform operation = .ok tables) {key : QueueKey}
    (hlocal : turn.Local peer key) (habsent : turn.tables.offset? key = none) :
    tables.offset? key = none := by
  cases htreats with
  | create other hother =>
    have hne : key ≠ turn.own other := by
      rintro rfl
      exact hgone (hlocal.2 ▸ hother)
    cases hok
    rw [offset?_create_of_ne hne]
    exact habsent
  | enqueue listed hfile =>
    obtain ⟨-, ⟨-, rfl⟩ | ⟨rfl, -, -⟩⟩ := enqueue_eq_ok_iff.mp hok
    · exact habsent
    · exact habsent
  | drop dropped =>
    cases hok
    show (turn.tables.remove dropped).offset? key = none
    rw [offset?_remove]
    split
    case isTrue => rfl
    case isFalse => exact habsent

theorem Bare.deed (h : turn.Bare peer) (hgone : ¬turn.Knows peer) (hdeed : Deed turn after) :
    after.Bare peer := by
  have hgoes := hdeed.goes peer
  constructor
  case queues =>
    intro key hlocal
    have hbefore := hgoes.local_iff.mp hlocal
    rcases hdeed.tables with hsame | ⟨operation, htreats, hok⟩
    · exact hsame ▸ h.queues key hbefore
    · exact htreats.absent hgone hok hbefore (h.queues key hbefore)
  case workers =>
    intro worker hworker hlocal
    have hbefore := hgoes.local_iff.mp hlocal
    rcases hdeed.workers hworker with ⟨old, hold, rfl | rfl⟩ | ⟨-, hthere⟩
    · exact h.workers worker hold hbefore
    · refine h.workers old hold ?_
      unfold Worker.wake at hbefore
      split at hbefore
      case isTrue => exact hbefore
      case isFalse => exact hbefore
    · exact hgone (hbefore.2 ▸ hthere)

theorem Bare.worked (h : turn.Bare peer) {worker : Worker} (hworker : worker ∈ turn.engine.workers) :
    (turn.worked worker).Bare peer where
  queues key hlocal := by
    have hne : key ≠ worker.key := fun hkey ↦ h.workers worker hworker (hkey ▸ hlocal)
    exact (same_worked turn hne).offset.trans (h.queues key hlocal)
  workers other hother hlocal := by
    rcases mem_worked hother with ⟨hkey, -⟩ | ⟨-, hold⟩
    · exact h.workers worker hworker (hkey ▸ hlocal)
    · exact h.workers other hold hlocal

theorem Bare.apart (h : turn.Bare peer) {world : World} (hapart : turn.Apart peer world) :
    Bare peer { turn with world } where
  queues key hlocal := (hapart.same key hlocal).offset.trans (h.queues key hlocal)
  workers := h.workers

/-! ## Ending the work for a peer -/

end Turn

end Engine

end LogShipping
