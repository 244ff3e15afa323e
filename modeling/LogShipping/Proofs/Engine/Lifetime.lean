import LogShipping.Proofs.Engine.Course
import LogShipping.Proofs.Worker.Endings

/-!
# The life of a node

A node writes its log, commits and rolls it, while its engine does one deed after the other and its workers
ship. All of this may end after any of these steps. As long as the files of the log are there, whatever stands
in a file that was listed on the node's own queue for a peer at some time has been acknowledged by the peer by
then, or is still pending on the queue.
-/

namespace LogShipping

open QueueTables

/-! ## Files of a log -/

namespace Storage

variable {storage after : Storage} {node : String} {file : FileRef}

/-- The file is being written, or a notice of its begin is kept. -/
def Tells (storage : Storage) (file : FileRef) : Prop :=
  (∃ committed, storage.active = some (file, committed)) ∨ .rolled file ∈ storage.feed.kept

theorem tells_roll {silent : Bool} (h : (storage.roll node silent).2.Tells file) :
    storage.Tells file ∨ file = Log.logFile node storage.next := by
  unfold roll at h
  rcases h with ⟨committed, hactive⟩ | hkept
  · cases hactive
    exact .inr rfl
  · dsimp only at hkept
    split at hkept
    case isTrue => exact .inl (.inr hkept)
    case isFalse =>
      rcases Feed.mem_kept_announce hkept with hold | hnew
      · exact .inl (.inr hold)
      · cases hnew
        exact .inr rfl

theorem tells_commit {length : Nat} (h : (storage.commit length).Tells file) : storage.Tells file := by
  unfold commit at h
  split at h
  case h_1 => exact h
  case h_2 writing committed hactive =>
    rcases h with ⟨now, hfile⟩ | hkept
    · cases hfile
      exact .inl ⟨committed, hactive⟩
    · rcases Feed.mem_kept_announce hkept with hold | hnew
      · exact .inr hold
      · cases hnew

theorem next_le_of_writes (hwrites : Writes storage after) : storage.next ≤ after.next := by
  cases hwrites with
  | roll node silent hnext => exact UInt64.le_of_lt (storage.next_lt_succ hnext)
  | commit length =>
    unfold commit
    split <;> exact UInt64.le_refl _

theorem Began.of_le (h : storage.Began node file) (hle : storage.next ≤ after.next) :
    after.Began node file := ⟨h.named, UInt64.lt_of_lt_of_le h.begun hle⟩

end Storage

/-- A file with a larger number than all that are listed comes behind them. -/
theorem QueueTables.filesOf_addFile {tables : QueueTables} {key : QueueKey} {file : FileRef}
    (wf : tables.WellFormed) (hafter : (tables.addFile key file).WellFormed)
    (hlater : ∀ other ∈ tables.filesOf key, rank other.seq < rank file.seq) :
    (tables.addFile key file).filesOf key = tables.filesOf key ++ [file] := by
  refine filesOf_eq_of_mem hafter ?_ fun other ↦ ?_
  · refine List.pairwise_append.mpr ⟨wf.pairwise_filesOf_lt key, List.pairwise_singleton _ _, ?_⟩
    exact fun other hother last hlast ↦ List.mem_singleton.mp hlast ▸ hlater other hother
  · show _ ↔ (key, other) ∈ tables.files ++ [(key, file)]
    simp

namespace Engine

open Log (Stays content? logFile)

namespace Turn

variable {turn after : Turn} {peer : String} {file : FileRef}

/-! ## Where an engine works -/

/-- What neither the deeds of an engine nor the steps of its workers touch. -/
structure Site where
  node : String
  /-- The node of the facilities that the workers share. -/
  station : String
  storages : List (String × Storage)
  directory : Directory
  schema : Schema

def site (turn : Turn) : Site :=
  ⟨turn.engine.node, turn.engine.facilities.node, turn.world.storages, turn.world.directory, turn.world.schema⟩

theorem site_deed (h : Deed turn after) : after.site = turn.site := by
  cases h with
  | books hworld hsettings _ hfacilities =>
    obtain ⟨measures, hworld⟩ := hworld
    obtain ⟨circuits, hfacilities⟩ := hfacilities
    unfold site Engine.node
    rw [hworld, hsettings, hfacilities]
  | recruit | forget | wake | reap | create | drop | enqueue | refresh => rfl
  | dismiss worker =>
    have hscene := Worker.Turn.scene_stop ⟨turn.world, turn.engine.facilities, worker⟩
    have hstation := Worker.Turn.station_stop ⟨turn.world, turn.engine.facilities, worker⟩
    have hstorages := Worker.Turn.storages_stop ⟨turn.world, turn.engine.facilities, worker⟩
    rw [site, site, Site.mk.injEq]
    exact ⟨rfl, hstation, hstorages, congrArg Worker.Scene.directory hscene,
      congrArg Worker.Scene.schema hscene⟩

theorem site_worked (turn : Turn) (worker : Worker) : (turn.worked worker).site = turn.site := by
  rw [site, site, Site.mk.injEq]
  exact ⟨rfl, Worker.Turn.station_step ⟨turn.world, turn.engine.facilities, worker⟩,
    Worker.Turn.storages_step ⟨turn.world, turn.engine.facilities, worker⟩,
    Worker.Turn.directory_step ⟨turn.world, turn.engine.facilities, worker⟩,
    Worker.Turn.schema_step ⟨turn.world, turn.engine.facilities, worker⟩⟩

theorem log_of_site (h : after.site = turn.site) : after.log = turn.log :=
  congrArg (fun site : Site ↦ (site.storages.lookup site.node).getD (.create 1)) h

theorem directory_of_site (h : after.site = turn.site) : after.world.directory = turn.world.directory :=
  congrArg Site.directory h

theorem stays_of_site (h : after.site = turn.site) (seq : UInt64) :
    Stays turn.world.directory after.world.directory (logFile turn.engine.node seq) := by
  unfold Stays
  rw [directory_of_site h]

theorem told_iff : turn.Told file ↔ turn.log.Tells file := Iff.rfl

/-! ## What the node does with its log -/

/-- The files on the node's own queue for the peer. -/
def files (turn : Turn) (peer : String) : List FileRef := turn.tables.filesOf (turn.own peer)

/-- The node's storage writes to its active file. -/
def append? (turn : Turn) (octets : Bytes) : Option Turn :=
  (Cluster.append? ⟨turn.world, []⟩ turn.engine.node octets false).map fun (_, cluster) ↦
    { turn with world := cluster.world }

/-- The files of the log are there. -/
def Readable (peer : String) (turn : Turn) : Prop :=
  ∀ file, turn.Told file ∨ file ∈ turn.files peer → (content? turn.world.directory file).isSome = true

/-- The cache and the table hold the peer, the node has a queue of its own for it, and the files of the log
have the names and numbers that the node gives them. -/
structure Serves (peer : String) (turn : Turn) : Prop where
  wellFormed : turn.tables.WellFormed
  ordered : turn.log.Ordered
  told : ∀ file, turn.Told file → turn.log.Began turn.engine.node file
  listed : ∀ file ∈ turn.files peer, turn.log.Began turn.engine.node file
  lists : turn.Lists peer
  knows : turn.Knows peer
  queue : turn.hasQueue peer = true
  station : turn.engine.facilities.node = turn.engine.node

/-- The node's own queue stands where it stood, with more of the log's files behind those it lists, if any. -/
structure Lengthens (peer : String) (turn : Turn) (tables : QueueTables) : Prop where
  offset : tables.offset? (turn.own peer) = turn.tables.offset? (turn.own peer)
  files : ∃ added, tables.filesOf (turn.own peer) = turn.files peer ++ added ∧ ∀ file ∈ added, turn.Told file

theorem lengthens_of_same {tables : QueueTables}
    (hoffset : tables.offset? (turn.own peer) = turn.tables.offset? (turn.own peer))
    (hfiles : tables.filesOf (turn.own peer) = turn.files peer) : turn.Lengthens peer tables :=
  ⟨hoffset, [], by rw [hfiles, List.append_nil], List.forall_mem_nil _⟩

/-- What happens leaves the node's own queue to the worker of this queue, and the files that are not being
written as they are. -/
structure Spares (peer : String) (turn after : Turn) : Prop where
  node : after.engine.node = turn.engine.node
  schema : after.world.schema = turn.world.schema
  queue : turn.Lengthens peer after.tables
  next : turn.log.next ≤ after.log.next
  closed : ∀ file, turn.log.Closed file → after.log.Closed file
  stays : ∀ seq, turn.log.Closed (logFile turn.engine.node seq) →
    Stays turn.world.directory after.world.directory (logFile turn.engine.node seq)
  continues : ∀ seq < turn.log.next,
    Worker.Continues turn.world.directory after.world.directory (logFile turn.engine.node seq)
  workers : ∀ worker ∈ after.engine.workers, worker.key = turn.own peer →
    worker.phase.Free ∨ ∃ old ∈ turn.engine.workers, old.key = turn.own peer ∧ worker.phase = old.phase

/-- What happens elsewhere leaves the node's log and its own queue alone, and the peer stays. -/
structure Untouched (peer : String) (turn : Turn) (world : World) : Prop where
  storage : world.storage turn.engine.node = turn.log
  stays : ∀ seq, Stays turn.world.directory world.directory (logFile turn.engine.node seq)
  schema : world.schema = turn.world.schema
  lists : Lists { turn with world } peer
  knows : Knows { turn with world } peer
  offset : world.database.queues.offset? (turn.own peer) = turn.tables.offset? (turn.own peer)
  files : world.database.queues.filesOf (turn.own peer) = turn.files peer
  wellFormed : world.database.queues.WellFormed

theorem log_setStorage (turn : Turn) (storage : Storage) (directory : Directory) :
    log { turn with world := { turn.world.setStorage turn.engine.node storage with directory } } = storage := by
  unfold log World.storage World.setStorage
  rw [List.lookup_cons_self, Option.getD_some]

section Spares

variable (h : turn.Serves peer)

include h

/-- The node still serves the peer, if it knows of the files that the storage tells of by now. -/
theorem Serves.spares (hspares : turn.Spares peer after) (hwf : after.tables.WellFormed)
    (hordered : after.log.Ordered) (hlists : after.Lists peer) (hknows : after.Knows peer)
    (hstation : after.engine.facilities.node = after.engine.node)
    (htold : ∀ file, after.Told file → turn.Told file ∨ after.log.Began after.engine.node file) :
    after.Serves peer := by
  have hown : after.own peer = turn.own peer := congrArg (QueueKey.own · peer) hspares.node
  have hbegan {file : FileRef} (hfile : turn.log.Began turn.engine.node file) :
      after.log.Began after.engine.node file := hspares.node ▸ hfile.of_le hspares.next
  refine ⟨hwf, hordered, fun file hfile ↦ ?_, fun file hfile ↦ ?_, hlists, hknows, ?_, hstation⟩
  · rcases htold file hfile with hold | hnew
    · exact hbegan (h.told file hold)
    · exact hnew
  · obtain ⟨added, hfiles, hadded⟩ := hspares.queue.files
    unfold Turn.files at hfile
    rw [hown, hfiles] at hfile
    rcases List.mem_append.mp hfile with hold | hnew
    · exact hbegan (h.listed file hold)
    · exact hbegan (h.told file (hadded file hnew))
  · have hqueue := h.queue
    unfold hasQueue at hqueue ⊢
    rw [hown]
    exact (congrArg Option.isSome hspares.queue.offset).trans hqueue

/-- Nothing happens to the log, and the peer stays. -/
theorem Serves.spares_of_log (hnode : after.engine.node = turn.engine.node) (hlog : after.log = turn.log)
    (hstays : ∀ seq, Stays turn.world.directory after.world.directory (logFile turn.engine.node seq))
    (hschema : after.world.schema = turn.world.schema) (hqueue : turn.Lengthens peer after.tables)
    (hwf : after.tables.WellFormed) (hlists : after.Lists peer) (hknows : after.Knows peer)
    (hstation : after.engine.facilities.node = after.engine.node)
    (hworkers : ∀ worker ∈ after.engine.workers, worker.key = turn.own peer →
      worker.phase.Free ∨ ∃ old ∈ turn.engine.workers, old.key = turn.own peer ∧ worker.phase = old.phase) :
    turn.Spares peer after ∧ after.Serves peer := by
  have hspares : turn.Spares peer after :=
    { node := hnode
      schema := hschema
      queue := hqueue
      next := hlog ▸ UInt64.le_refl _
      closed := fun _ hclosed ↦ hlog ▸ hclosed
      stays := fun seq _ ↦ hstays seq
      continues := fun seq _ ↦ Worker.Stays.continues (hstays seq)
      workers := hworkers }
  refine ⟨hspares, h.spares hspares hwf (hlog ▸ h.ordered) hlists hknows hstation fun file hfile ↦ .inl ?_⟩
  rw [told_iff, hlog] at hfile
  exact hfile

/-! ## Deeds -/

/-- A file of the node's log has a number that the tables put in order. -/
theorem Serves.rank_eq {file : FileRef} (hfile : turn.log.Began turn.engine.node file) :
    rank file.seq = file.seq.toNat := by
  refine rank_eq_toNat (Nat.lt_of_lt_of_le ?_ h.ordered.bound)
  exact UInt64.lt_iff_toNat_lt.mp hfile.begun

/-- As long as the cache holds the peer, an operation that a deed carries out leaves the node's own queue for
it as it is, but for a file that may be listed behind the others. -/
theorem Serves.lengthens_of_treats {operation : Operation} (htreats : turn.Treats operation)
    {tables : QueueTables} (hok : turn.tables.perform operation = .ok tables) : turn.Lengthens peer tables := by
  have hapart {other : QueueKey} (hsubject : operation.subject? = some other) (hne : turn.own peer ≠ other) :
      turn.Lengthens peer tables :=
    lengthens_of_same (same_of_ne hok hsubject hne).offset (filesOf_of_ne hok hsubject hne)
  cases htreats with
  | create other hother =>
    by_cases hsame : turn.own peer = turn.own other
    · rw [← hsame] at hok
      obtain ⟨offset, hoffset⟩ := Option.isSome_iff_exists.mp h.queue
      have hthere : turn.tables.offset? (turn.own peer) = some offset := hoffset
      cases hok
      unfold create
      rw [hthere]
      exact lengthens_of_same rfl rfl
    · exact hapart rfl hsame
  | drop key hgone =>
    refine hapart rfl ?_
    rintro rfl
    exact hgone h.knows
  | enqueue key htold =>
    rename_i file
    by_cases hsame : turn.own peer = key
    · subst hsame
      have hafter := h.wellFormed.perform (.enqueue (turn.own peer) file) hok
      obtain ⟨-, ⟨-, rfl⟩ | ⟨rfl, -, hnewer⟩⟩ := enqueue_eq_ok_iff.mp hok
      · exact lengthens_of_same rfl rfl
      · refine ⟨rfl, [file], filesOf_addFile h.wellFormed hafter fun other hother ↦ ?_, ?_⟩
        · cases htail : turn.tables.tailSeq? (turn.own peer) with
          | none =>
            have hlisted : turn.tables.lists (turn.own peer) other.seq = true :=
              lists_iff_mem_filesOf.mpr ⟨other, hother, rfl⟩
            rw [tailSeq?_eq_none_iff.mp htail] at hlisted
            cases hlisted
          | some tail =>
            obtain ⟨hlast, hleast⟩ := tailSeq?_eq_some_iff.mp htail
            obtain ⟨last, hmem, rfl⟩ := lists_iff_mem_filesOf.mp hlast
            have hle := hleast other.seq (lists_iff_mem_filesOf.mpr ⟨other, hother, rfl⟩)
            have hlt := UInt64.lt_iff_toNat_lt.mp (hnewer _ htail)
            rw [h.rank_eq (h.listed last hmem)] at hle
            rw [h.rank_eq (h.told file htold)]
            omega
        · exact List.forall_mem_singleton.mpr htold
    · exact hapart rfl hsame

/-- A deed leaves the node's own queue to its worker. -/
theorem Serves.deed (hdeed : Deed turn after) : turn.Spares peer after ∧ after.Serves peer := by
  have hsite := site_deed hdeed
  have hgoes := hdeed.goes peer
  have hqueue : turn.Lengthens peer after.tables ∧ after.tables.WellFormed := by
    rcases hdeed.tables with hsame | ⟨operation, htreats, hok⟩
    · exact hsame ▸ ⟨lengthens_of_same rfl rfl, h.wellFormed⟩
    · exact ⟨h.lengthens_of_treats htreats hok, h.wellFormed.perform operation hok⟩
  refine h.spares_of_log hgoes.node (log_of_site hsite) (stays_of_site hsite) (congrArg Site.schema hsite)
    hqueue.1 hqueue.2 (hgoes.table.mpr h.lists) (hgoes.knows h.lists h.knows)
    ((congrArg Site.station hsite).trans (h.station.trans hgoes.node.symm)) fun worker hworker hkey ↦ ?_
  rcases hdeed.workers hworker with ⟨old, hold, rfl | rfl⟩ | ⟨hready, -⟩
  · exact .inr ⟨worker, hold, hkey, rfl⟩
  · obtain ⟨hsame, hphase | hready⟩ := phase_wake old
    · exact .inr ⟨old, hold, hsame ▸ hkey, hphase⟩
    · exact .inl (hready ▸ trivial)
  · exact .inl (hready ▸ trivial)

omit h in
/-- The files that a deed lists are there. -/
theorem Readable.deed (hreadable : turn.Readable peer) (hspares : turn.Spares peer after)
    (hdeed : Deed turn after) : after.Readable peer := by
  have hsite := site_deed hdeed
  have hown : after.own peer = turn.own peer := congrArg (QueueKey.own · peer) hspares.node
  intro file hfile
  rw [directory_of_site hsite]
  rw [told_iff, log_of_site hsite] at hfile
  refine hreadable file (hfile.elim .inl fun hlisted ↦ ?_)
  obtain ⟨added, hfiles, hadded⟩ := hspares.queue.files
  unfold Turn.files at hlisted
  rw [hown, hfiles] at hlisted
  exact (List.mem_append.mp hlisted).symm.imp_left (hadded file)

/-- So does the worker of another queue. -/
theorem Serves.worked {worker : Worker} (hother : worker.key ≠ turn.own peer) :
    turn.Spares peer (turn.worked worker) ∧ (turn.worked worker).Serves peer := by
  have hsite := turn.site_worked worker
  have hgoes := goes_worked turn worker peer
  have hqueue : turn.Lengthens peer (turn.worked worker).tables ∧ (turn.worked worker).tables.WellFormed := by
    rcases turn.tables_worked worker with hsame | ⟨operation, hsubject, -, hok⟩
    · exact hsame ▸ ⟨lengthens_of_same rfl rfl, h.wellFormed⟩
    · exact ⟨lengthens_of_same (same_of_ne hok hsubject hother.symm).offset
        (filesOf_of_ne hok hsubject hother.symm), h.wellFormed.perform operation hok⟩
  refine h.spares_of_log rfl (log_of_site hsite) (stays_of_site hsite) (congrArg Site.schema hsite)
    hqueue.1 hqueue.2 (hgoes.table.mpr h.lists) (hgoes.knows h.lists h.knows)
    ((congrArg Site.station hsite).trans h.station) fun other hworker hkey ↦ ?_
  rcases mem_worked hworker with ⟨hsame, -⟩ | ⟨-, hold⟩
  · exact (hother (hsame.symm.trans hkey)).elim
  · exact .inr ⟨other, hold, hkey, rfl⟩

/-- A new engine of the node has no workers yet. -/
theorem Serves.restart {engine : Engine} (hnode : engine.node = turn.engine.node)
    (hstation : engine.facilities.node = engine.node) (hnone : engine.workers = []) :
    turn.Spares peer { turn with engine } ∧ Serves peer { turn with engine } := by
  refine h.spares_of_log hnode (congrArg turn.world.storage hnode) (fun _ ↦ rfl) rfl
    (lengthens_of_same rfl rfl) h.wellFormed h.lists h.knows hstation fun worker hworker ↦ ?_
  rw [hnone] at hworker
  cases hworker

/-- What happens elsewhere. -/
theorem Serves.untouched {world : World} (haway : turn.Untouched peer world) :
    turn.Spares peer { turn with world } ∧ Serves peer { turn with world } :=
  h.spares_of_log rfl haway.storage haway.stays haway.schema (lengthens_of_same haway.offset haway.files)
    haway.wellFormed haway.lists haway.knows h.station
    fun worker hworker hkey ↦ .inr ⟨worker, hworker, hkey, rfl⟩

/-! ## The log goes on -/

/-- What is done to the log leaves the rest of the world alone. -/
theorem Serves.spares_of_write (storages : List (String × Storage)) {directory : Directory}
    (hafter : after = { turn with world := { turn.world with storages, directory } })
    (hlog : after.log = turn.log ∨ turn.log.Writes after.log)
    (hstays : ∀ seq, turn.log.Closed (logFile turn.engine.node seq) →
      Stays turn.world.directory directory (logFile turn.engine.node seq))
    (hcontinues : ∀ seq < turn.log.next,
      Worker.Continues turn.world.directory directory (logFile turn.engine.node seq))
    (htold : ∀ file, after.Told file → turn.Told file ∨ after.log.Began after.engine.node file) :
    turn.Spares peer after ∧ after.Serves peer := by
  have hspares : turn.Spares peer after := by
    subst hafter
    refine ⟨rfl, rfl, lengthens_of_same rfl rfl, ?_, fun file hclosed ↦ ?_, hstays, hcontinues,
      fun worker hworker hkey ↦ .inr ⟨worker, hworker, hkey, rfl⟩⟩
    · rcases hlog with hsame | hwrites
      · exact hsame ▸ UInt64.le_refl _
      · exact Storage.next_le_of_writes hwrites
    · rcases hlog with hsame | hwrites
      · exact hsame ▸ hclosed
      · exact hclosed.writes hwrites
  have hordered : after.log.Ordered := hlog.elim (fun hsame ↦ hsame ▸ h.ordered) h.ordered.writes
  refine ⟨hspares, ?_⟩
  subst hafter
  exact h.spares hspares h.wellFormed hordered h.lists h.knows h.station htold

/-- The storage writes to its active file. -/
theorem Serves.append {octets : Bytes} (hreadable : turn.Readable peer)
    (happend : turn.append? octets = some after) : turn.Spares peer after ∧ after.Serves peer := by
  obtain ⟨⟨length, cluster⟩, hcluster, rfl⟩ := Option.map_eq_some_iff.mp happend
  obtain ⟨⟨file, committed⟩, hactive, hwritten⟩ := Option.bind_eq_some_iff.mp hcluster
  cases hwritten
  have htold : turn.Told file := .inl ⟨committed, hactive⟩
  obtain ⟨hnamed, -⟩ := h.told file htold
  obtain ⟨content, hcontent⟩ := Option.isSome_iff_exists.mp (hreadable file (.inl htold))
  have hpath : file.path = logFileName turn.engine.node file.seq := congrArg FileRef.path hnamed
  have hothers {seq : UInt64} (hne : seq ≠ file.seq) : Stays turn.world.directory
      (turn.world.directory.append file.path octets) (logFile turn.engine.node seq) := by
    rw [hpath]
    exact Log.content?_write_of_ne hne _
  refine h.spares_of_write turn.world.storages rfl (.inl rfl) (fun seq hclosed ↦ hothers ?_)
    (fun seq _ ↦ ?_) fun _ ↦ .inl
  · exact (hclosed.2 file committed hactive).symm
  · by_cases hseq : seq = file.seq
    · subst hseq
      rw [hnamed] at hcontent
      unfold Worker.Continues
      rw [hcontent, hpath]
      exact Log.content?_append hcontent octets
    · exact Worker.Stays.continues (hothers hseq)

/-- The storage commits what it has written. -/
theorem Serves.commit {length : Nat}
    (hlength : ∀ file committed, turn.log.active = some (file, committed) → committed ≤ length) :
    turn.Spares peer (turn.commit length) ∧ (turn.commit length).Serves peer := by
  have hlog : (turn.commit length).log = turn.log.commit length :=
    turn.log_setStorage _ turn.world.directory
  refine h.spares_of_write _ rfl (.inr (hlog ▸ .commit turn.log length hlength)) (fun _ _ ↦ rfl)
    (fun _ _ ↦ Worker.Stays.continues rfl) fun file hfile ↦ .inl ?_
  rw [told_iff, hlog] at hfile
  exact Storage.tells_commit hfile

/-- The storage begins its next file. -/
theorem Serves.roll {silent : Bool} (hnext : turn.log.next.toNat < 1 <<< 63) :
    turn.Spares peer (turn.roll silent) ∧ (turn.roll silent).Serves peer := by
  have hlog : (turn.roll silent).log = (turn.log.roll turn.engine.node silent).2 := turn.log_setStorage _ _
  have hstays (seq : UInt64) (hlt : seq < turn.log.next) : Stays turn.world.directory
      (turn.world.directory.write (logFileName turn.engine.node turn.log.next) [])
      (logFile turn.engine.node seq) := Log.content?_write_of_ne (UInt64.ne_of_lt hlt) []
  refine h.spares_of_write _ rfl (.inr (hlog ▸ .roll turn.log _ silent hnext))
    (fun seq hclosed ↦ hstays seq hclosed.1) (fun seq hlt ↦ Worker.Stays.continues (hstays seq hlt))
    fun file hfile ↦ ?_
  rw [told_iff, hlog] at hfile
  refine (Storage.tells_roll hfile).imp_right fun hnew ↦ ?_
  rw [hlog, hnew]
  exact ⟨rfl, turn.log.next_lt_succ hnext⟩

end Spares

end Turn

/-! ## Lives -/

/-- What has become of a node, and of its own queue for a peer. -/
structure Lifetime where
  turn : Turn
  /-- The files that were on the queue at some time. -/
  listed : List FileRef
  /-- The passages that the peer has acknowledged to the workers of the queue. -/
  acknowledged : List Passage

namespace Lifetime

def opening (peer : String) (turn : Turn) : Lifetime := ⟨turn, turn.files peer, []⟩

def goOn (life : Lifetime) (peer : String) (turn : Turn) : Lifetime :=
  { life with turn, listed := life.listed ++ turn.files peer }

/-- A worker makes a step. -/
def work (life : Lifetime) (peer : String) (worker : Worker) : Lifetime :=
  { life.goOn peer (life.turn.worked worker) with
    acknowledged := life.acknowledged ++
      if worker.key = life.turn.own peer then
        (Worker.Turn.delivers? ⟨life.turn.world, life.turn.engine.facilities, worker⟩).toList
      else [] }

/-- What is left of the record at the place is in a passage that the peer has acknowledged. -/
def Delivered (life : Lifetime) (place : LogPlace) (kept : Entry) : Prop :=
  ∃ passage ∈ life.acknowledged, passage.covers place = true ∧ kept ∈ passage.shipment.entries

/-- One step of a life. -/
inductive Moves (peer : String) : Lifetime → Lifetime → Prop
  | append (life : Lifetime) {octets : Bytes} {turn : Turn} (h : life.turn.append? octets = some turn) :
      Moves peer life (life.goOn peer turn)
  | commit (life : Lifetime) (length : Nat)
      (hlength : ∀ file committed, life.turn.log.active = some (file, committed) → committed ≤ length) :
      Moves peer life (life.goOn peer (life.turn.commit length))
  | roll (life : Lifetime) (silent : Bool) (hnext : life.turn.log.next.toNat < 1 <<< 63) :
      Moves peer life (life.goOn peer (life.turn.roll silent))
  | deed (life : Lifetime) {turn : Turn} (h : Deed life.turn turn) : Moves peer life (life.goOn peer turn)
  | work (life : Lifetime) {worker : Worker} (hworker : worker ∈ life.turn.engine.workers) :
      Moves peer life (life.work peer worker)
  /-- The node is gone for a while, and comes back with a new engine. -/
  | restart (life : Lifetime) {settings : NodeSettings} {engine : Engine}
      (hcreate : Engine.create? settings = some engine) (hnode : settings.node = life.turn.engine.node) :
      Moves peer life (life.goOn peer { life.turn with engine })
  | elsewhere (life : Lifetime) {world : World} (h : life.turn.Untouched peer world) :
      Moves peer life (life.goOn peer { life.turn with world })

/-- A life leads to another while the files of the log are there. -/
def Leads (peer : String) : Lifetime → Lifetime → Prop :=
  Relation.ReflTransGen fun life after ↦ life.turn.Readable peer ∧ Moves peer life after

/-- What an engine does at one go is a part of a life, which may end after any of its deeds. -/
theorem leads_deeds {peer : String} (life : Lifetime) {turn : Turn} (hserves : life.turn.Serves peer)
    (hreadable : life.turn.Readable peer) (hlisted : ∀ file ∈ life.turn.files peer, file ∈ life.listed)
    (hdeeds : Deeds life.turn turn) :
    ∃ after, Leads peer life after ∧ after.turn = turn ∧ turn.Serves peer ∧ turn.Readable peer ∧
      (∀ file ∈ turn.files peer, file ∈ after.listed) ∧ after.acknowledged = life.acknowledged := by
  induction hdeeds with
  | refl => exact ⟨life, .refl, rfl, hserves, hreadable, hlisted, rfl⟩
  | tail _ hdeed ih =>
    obtain ⟨before, hleads, rfl, hserves, hreadable, hlisted, hheard⟩ := ih
    have hmove := hserves.deed hdeed
    exact ⟨before.goOn peer _, hleads.tail ⟨hreadable, .deed before hdeed⟩, rfl, hmove.2,
      hreadable.deed hmove.1 hdeed, fun file hfile ↦ List.mem_append_right _ hfile, hheard⟩

/-- The node serves the peer, and no worker of the queue has anything in hand. -/
structure Opening (peer : String) (turn : Turn) : Prop where
  tables : turn.tables.Reachable
  serves : turn.Serves peer
  idle : ∀ worker ∈ turn.engine.workers, worker.key = turn.own peer → worker.phase.Free

/-! ## The relay of a life -/

/-- The relay has done what the workers of the node's own queue have, and the rest happened around it. -/
structure Follows (queue : Queue) (schema : Schema) (original : Directory) (peer : String) (life : Lifetime)
    (relay : Worker.Relay) : Prop where
  serves : life.turn.Serves peer
  orderly : Worker.Relay.Orderly queue schema original relay
  tidy : relay.Tidy
  world : relay.turn.world = life.turn.world
  key : relay.turn.worker.key = life.turn.own peer
  station : relay.turn.station = life.turn.engine.node
  inHand : ∀ worker ∈ life.turn.engine.workers, worker.key = life.turn.own peer →
    worker.phase = relay.turn.worker.phase ∨ worker.phase.Free
  acknowledged : life.acknowledged = relay.acknowledged
  listed : ∀ file, file ∈ life.listed ↔ file ∈ relay.files

namespace Follows

variable {queue : Queue} {schema : Schema} {original : Directory} {peer : String} {life after : Lifetime}
  {relay : Worker.Relay} {turn : Turn}

section Steps

variable (h : Follows queue schema original peer life relay)

include h

theorem listed_eq : relay.scene.listed = life.turn.files peer := by
  show relay.turn.world.database.queues.filesOf relay.turn.worker.key = _
  rw [h.world, h.key]
  rfl

theorem log_eq : relay.turn.log = life.turn.log := by
  unfold Worker.Turn.log
  rw [h.world, h.station]
  rfl

/-- What spares the queue spares the relay. -/
theorem spares (hspares : life.turn.Spares peer turn) (hserves : turn.Serves peer) :
    Worker.Spares relay.finished relay.scene
      (Worker.Turn.scene ⟨turn.world, relay.turn.facilities, relay.turn.worker⟩) := by
  obtain ⟨added, hfiles, hadded⟩ := hspares.queue.files
  have hlisted : (Worker.Turn.scene ⟨turn.world, relay.turn.facilities, relay.turn.worker⟩).listed =
      relay.scene.listed ++ added := by
    show turn.tables.filesOf relay.turn.worker.key = _
    rw [h.key, hfiles, h.listed_eq]
  have hacross := (List.pairwise_append.mp h.orderly.ascending).2.2
  constructor
  case schema =>
    show turn.world.schema = relay.turn.world.schema
    rw [h.world, hspares.schema]
  case wellFormed => exact hserves.wellFormed
  case offset =>
    show turn.tables.offset? relay.turn.worker.key = relay.turn.world.database.queues.offset? relay.turn.worker.key
    rw [h.world, h.key]
    exact hspares.queue.offset
  case listed => exact ⟨added, hlisted⟩
  case later =>
    intro done hdone file hfile
    have hmem : done.file ∈ relay.done := Worker.Relay.mem_done.mpr ⟨done.offset, hdone⟩
    rw [hlisted] at hfile
    rcases List.mem_append.mp hfile with hold | hnew
    · exact hacross done.file hmem file hold
    · -- Where a file was taken off another one is still listed, and what is new comes behind that.
      obtain ⟨last, hlast⟩ := List.exists_mem_of_ne_nil _ (h.tidy.left (List.ne_nil_of_mem hdone))
      have hascending := hserves.wellFormed.pairwise_filesOf_lt (life.turn.own peer)
      rw [hfiles, ← h.listed_eq] at hascending
      have hbehind := (List.pairwise_append.mp hascending).2.2 last hlast file hnew
      exact Int.lt_trans (hacross done.file hmem last hlast) hbehind
  case written =>
    intro file hfile
    have hmem : file ∈ relay.files :=
      List.mem_append.mpr (hfile.imp_right List.mem_of_head?)
    have hbegan := h.tidy.began_of_mem_files hmem
    rw [h.log_eq, h.station] at hbegan
    have hcontinues := hspares.continues file.seq hbegan.begun
    rw [← hbegan.named, ← h.world] at hcontinues
    exact hcontinues

theorem respects (hspares : life.turn.Spares peer turn) :
    relay.turn.Respects ⟨turn.world, relay.turn.facilities, relay.turn.worker⟩ := by
  have hlog : Worker.Turn.log ⟨turn.world, relay.turn.facilities, relay.turn.worker⟩ = turn.log :=
    congrArg turn.world.storage (h.station.trans hspares.node.symm)
  constructor
  case station => rfl
  case closed =>
    intro file hclosed
    rw [hlog]
    exact hspares.closed file (h.log_eq ▸ hclosed)
  case stays =>
    intro seq hclosed
    rw [h.log_eq, h.station] at hclosed
    rw [h.station, h.world]
    exact hspares.stays seq hclosed

theorem goOn (hmove : life.turn.Spares peer turn ∧ turn.Serves peer) :
    Follows queue schema original peer (life.goOn peer turn)
      (relay.setTurn ⟨turn.world, relay.turn.facilities, relay.turn.worker⟩) := by
  obtain ⟨hspares, hserves⟩ := hmove
  have hrelay := h.spares hspares hserves
  have hown : turn.own peer = life.turn.own peer := congrArg (QueueKey.own · peer) hspares.node
  have hstation : relay.turn.station = turn.engine.node := h.station.trans hspares.node.symm
  have hlisted : (Worker.Turn.scene ⟨turn.world, relay.turn.facilities, relay.turn.worker⟩).listed =
      turn.files peer := by
    show turn.tables.filesOf relay.turn.worker.key = turn.tables.filesOf (turn.own peer)
    rw [h.key, hown]
  constructor
  case serves => exact hserves
  case orderly => exact h.orderly.goOn hrelay (Worker.Relay.Orderly.inHand_of_spares hrelay h.orderly.inHand)
  case tidy =>
    refine h.tidy.goOn h.orderly hrelay (h.respects hspares) rfl (fun file hfile ↦ ?_) (.inl rfl)
    rw [hlisted] at hfile
    have hbegan := hserves.listed file hfile
    show (turn.world.storage relay.turn.station).Began relay.turn.station file
    rw [hstation]
    exact hbegan
  case world => rfl
  case key => exact h.key.trans hown.symm
  case station => exact hstation
  case inHand =>
    intro worker hworker hkey
    rcases hspares.workers worker hworker (hkey.trans hown) with hfree | ⟨old, hold, holdkey, hphase⟩
    · exact .inr hfree
    · exact (h.inHand old hold holdkey).imp hphase.trans fun hfree ↦ hphase ▸ hfree
  case acknowledged => exact h.acknowledged
  case listed =>
    intro file
    obtain ⟨added, hadded⟩ := hrelay.listed
    have hnow : (relay.setTurn ⟨turn.world, relay.turn.facilities, relay.turn.worker⟩).scene.listed =
        relay.scene.listed ++ added := hadded
    have hbefore := h.listed file
    rw [Worker.Relay.files, List.mem_append] at hbefore ⊢
    show file ∈ life.listed ++ turn.files peer ↔ file ∈ relay.done ∨ _
    rw [hnow, ← hlisted, hadded, List.mem_append, List.mem_append, hbefore]
    grind

/-- The relay takes up a worker of the queue. -/
theorem takeUp {worker : Worker} (hworker : worker ∈ life.turn.engine.workers)
    (hown : worker.key = life.turn.own peer) :
    let start := relay.setTurn ⟨life.turn.world, life.turn.engine.facilities, worker⟩
    Worker.Relay.Orderly queue schema original start ∧ start.Tidy ∧ start.files = relay.files := by
  generalize hturn : (⟨life.turn.world, life.turn.engine.facilities, worker⟩ : Worker.Turn) = turn
  have hscene : turn.scene = relay.scene := by
    subst hturn
    unfold Worker.Relay.scene Worker.Turn.scene
    rw [h.world, h.key, hown]
  have hstation : turn.station = relay.turn.station := by
    subst hturn
    exact h.serves.station.trans h.station.symm
  have hlog : turn.log = relay.turn.log := by
    unfold Worker.Turn.log
    rw [hstation, h.world, ← hturn]
  have hphase : turn.worker.phase = relay.turn.worker.phase ∨ turn.worker.phase.Free :=
    hturn ▸ h.inHand worker hworker hown
  dsimp only
  refine ⟨h.orderly.setTurn hscene ?_, ?_, ?_⟩
  · rcases hphase with hsame | hfree
    · rw [hsame]
      exact h.orderly.inHand
    · exact Worker.Relay.inHand_of_free hfree
  · refine h.tidy.goOn h.orderly (hscene.symm ▸ h.orderly.spares_self) ⟨hstation, ?_, fun _ _ ↦ ?_⟩
      (congrArg Worker.Scene.key hscene) (fun file hfile ↦ ?_) hphase
    · exact fun _ hclosed ↦ hlog.symm ▸ hclosed
    · unfold Stays
      rw [show turn.world.directory = relay.turn.world.directory from congrArg Worker.Scene.directory hscene]
    · rw [hlog, hstation]
      exact h.tidy.begun file (hscene ▸ hfile)
  · show relay.done ++ turn.scene.listed = relay.done ++ relay.scene.listed
    rw [hscene]

/-- The worker never comes to drop the queue. -/
theorem worked {worker : Worker} (hown : worker.key = life.turn.own peer)
    (htidy : (relay.setTurn ⟨life.turn.world, life.turn.engine.facilities, worker⟩).Tidy)
    (hafter : (relay.setTurn ⟨life.turn.world, life.turn.engine.facilities, worker⟩).work.Tidy) :
    (life.turn.worked worker).Serves peer := by
  have hsite := life.turn.site_worked worker
  have hlog := Turn.log_of_site hsite
  have hgoes := Turn.goes_worked life.turn worker peer
  have hqueue : (life.turn.worked worker).tables.WellFormed ∧ (life.turn.worked worker).hasQueue peer = true := by
    show _ ∧ ((life.turn.worked worker).tables.offset? (life.turn.own peer)).isSome = true
    rcases life.turn.tables_worked worker with hsame | ⟨operation, hsubject, hdropping, hok⟩
    · rw [hsame]
      exact ⟨h.serves.wellFormed, h.serves.queue⟩
    · refine ⟨h.serves.wellFormed.perform operation hok,
        isSome_offset?_of_perform hok (hown ▸ hsubject) (fun hdrop ↦ ?_) h.serves.queue⟩
      have hinHand := htidy.inHand
      have hphase : (relay.setTurn ⟨life.turn.world, life.turn.engine.facilities, worker⟩).turn.worker.phase =
          .dropping := hdropping (hown ▸ hdrop)
      rw [hphase] at hinHand
      exact hinHand
  refine ⟨hqueue.1, hlog ▸ h.serves.ordered, fun file hfile ↦ ?_, fun file hfile ↦ ?_,
    hgoes.table.mpr h.serves.lists, hgoes.knows h.serves.lists h.serves.knows, hqueue.2,
    (congrArg Turn.Site.station hsite).trans h.serves.station⟩
  · rw [Turn.told_iff, hlog] at hfile
    exact hlog.symm ▸ h.serves.told file hfile
  · have hlisted : file ∈ (relay.setTurn
        ⟨life.turn.world, life.turn.engine.facilities, worker⟩).work.scene.listed := by
      show file ∈ (life.turn.worked worker).tables.filesOf
        (Worker.step ⟨life.turn.world, life.turn.engine.facilities, worker⟩).worker.key
      rw [Turn.key_worked, hown]
      exact hfile
    have hbegan := hafter.begun file hlisted
    have hstation : (relay.setTurn
        ⟨life.turn.world, life.turn.engine.facilities, worker⟩).work.turn.station = life.turn.engine.node :=
      (congrArg Turn.Site.station hsite).trans h.serves.station
    unfold Worker.Turn.log at hbegan
    rw [hstation] at hbegan
    exact hbegan

/-- A worker of the queue makes a step. -/
theorem work {worker : Worker} (hreadable : life.turn.Readable peer)
    (hworker : worker ∈ life.turn.engine.workers) (hown : worker.key = life.turn.own peer) :
    Follows queue schema original peer (life.work peer worker)
      (relay.setTurn ⟨life.turn.world, life.turn.engine.facilities, worker⟩).work := by
  obtain ⟨horderly, htidy, hfiles⟩ := h.takeUp hworker hown
  have hlisted : (relay.setTurn
      ⟨life.turn.world, life.turn.engine.facilities, worker⟩).scene.listed = life.turn.files peer := by
    show life.turn.tables.filesOf worker.key = _
    rw [hown]
    rfl
  have hafter := htidy.work horderly fun file hfile ↦ hreadable file (.inr (hlisted ▸ hfile))
  have hkey := Turn.key_worked life.turn worker
  constructor
  case serves => exact h.worked hown htidy hafter
  case orderly => exact horderly.work
  case tidy => exact hafter
  case world => rfl
  case key => exact hkey.trans hown
  case station =>
    exact (Worker.Turn.station_step ⟨life.turn.world, life.turn.engine.facilities, worker⟩).trans h.serves.station
  case inHand =>
    intro other hother hsame
    rcases Turn.mem_worked hother with ⟨-, rfl⟩ | ⟨hne, -⟩
    · exact .inl rfl
    · exact (hne (hsame.trans hown.symm)).elim
  case acknowledged =>
    rw [Worker.Relay.acknowledged_work]
    show life.acknowledged ++ (if worker.key = life.turn.own peer then _ else []) = _
    rw [if_pos hown, h.acknowledged]
    rfl
  case listed =>
    intro file
    have hsame := htidy.files_work horderly
    rw [hfiles] at hsame
    have hnow : (life.turn.worked worker).files peer = (relay.setTurn
        ⟨life.turn.world, life.turn.engine.facilities, worker⟩).work.scene.listed := by
      show (life.turn.worked worker).tables.filesOf (life.turn.own peer) = (life.turn.worked worker).tables.filesOf
        (Worker.step ⟨life.turn.world, life.turn.engine.facilities, worker⟩).worker.key
      rw [hkey, hown]
    show file ∈ life.listed ++ (life.turn.worked worker).files peer ↔ _
    rw [hsame, List.mem_append, h.listed, hnow]
    refine or_iff_left_of_imp fun hfile ↦ ?_
    rw [← hsame]
    exact List.mem_append_right _ hfile

end Steps

theorem moves (h : Follows queue schema original peer life relay) (hreadable : life.turn.Readable peer)
    (hmove : Moves peer life after) : ∃ relay, Follows queue schema original peer after relay := by
  cases hmove with
  | append happend => exact ⟨_, h.goOn (h.serves.append hreadable happend)⟩
  | commit length hlength => exact ⟨_, h.goOn (h.serves.commit hlength)⟩
  | roll silent hnext => exact ⟨_, h.goOn (h.serves.roll hnext)⟩
  | deed hdeed => exact ⟨_, h.goOn (h.serves.deed hdeed)⟩
  | work hworker =>
    rename_i worker
    by_cases hown : worker.key = life.turn.own peer
    · exact ⟨_, h.work hreadable hworker hown⟩
    · have hsame : life.work peer worker = life.goOn peer (life.turn.worked worker) := by
        unfold Lifetime.work
        rw [if_neg hown, List.append_nil]
        rfl
      exact ⟨_, hsame ▸ h.goOn (h.serves.worked hown)⟩
  | restart hcreate hnode =>
    obtain ⟨facilities, hfacilities, rfl⟩ := Option.map_eq_some_iff.mp hcreate
    obtain ⟨places, -, rfl⟩ := Option.map_eq_some_iff.mp hfacilities
    exact ⟨_, h.goOn (h.serves.restart hnode rfl rfl)⟩
  | elsewhere haway => exact ⟨_, h.goOn (h.serves.untouched haway)⟩

theorem leads (h : Follows queue schema original peer life relay) (hleads : Leads peer life after) :
    ∃ relay, Follows queue schema original peer after relay := by
  induction hleads with
  | refl => exact ⟨relay, h⟩
  | tail _ hstep ih =>
    obtain ⟨_, hrelay⟩ := ih
    exact hrelay.moves hstep.1 hstep.2

end Follows

/-- A relay with a new worker. -/
theorem Opening.follows {peer : String} {turn : Turn} (h : Opening peer turn) {queue : Queue}
    (hqueue : turn.tables.get? (turn.own peer) = some queue) (sink : Sink) (circuit : Nat) (gate : Gate) :
    Follows queue turn.world.schema turn.world.directory peer (.opening peer turn)
      (.opening ⟨turn.world, turn.engine.facilities, .create (turn.own peer) sink circuit gate⟩) where
  serves := h.serves
  orderly :=
    .opening ⟨turn.world, turn.engine.facilities, .create (turn.own peer) sink circuit gate⟩ trivial h.tables
      hqueue
  tidy := by
    refine .opening ?_ (fun file hfile ↦ ?_) trivial
    · show (QueueKey.own turn.engine.node peer).isRecovered = false
      simp [QueueKey.own, QueueKey.isRecovered]
    · show (turn.world.storage turn.engine.facilities.node).Began turn.engine.facilities.node file
      rw [h.serves.station]
      exact h.serves.listed file hfile
  world := rfl
  key := rfl
  station := h.serves.station
  inHand worker hworker hkey := .inr (h.idle worker hworker hkey)
  acknowledged := rfl
  listed _ := Iff.rfl

/-! ## What becomes of a record -/

section Records

variable {queue : Queue} {schema : Schema} {original : Directory} {peer : String} {life : Lifetime}
  {relay : Worker.Relay} {place : LogPlace} {entry kept : Entry}

/-- What stands in a file that was listed has been acknowledged, or is still pending. -/
theorem Follows.delivered_or_pending (h : Follows queue schema original peer life relay)
    (hrecorded : Worker.Recorded queue life.turn.world.directory place entry)
    (hkept : entry.filter schema = some kept) (hlisted : place.file ∈ life.listed) :
    life.Delivered place kept ∨
      life.turn.tables.Pending (life.turn.own peer) ⟨place.file.seq, place.offset⟩ := by
  have hfile := (h.listed place.file).mp hlisted
  have hrecorded' : Worker.Recorded queue relay.scene.directory place entry := by
    unfold Worker.Relay.scene Worker.Turn.scene
    rw [h.world]
    exact hrecorded
  have hdelivered (hpassed : relay.Passed place) : life.Delivered place kept := by
    obtain ⟨passage, hpassage, hcovers⟩ :=
      h.orderly.settled place hpassed ⟨hfile, entry, kept, hrecorded', hkept⟩
    have hunderway := h.orderly.arrived passage (h.orderly.acknowledged passage hpassage)
    exact ⟨passage, h.acknowledged ▸ hpassage, hcovers,
      (h.orderly.drawn passage hunderway).1.mem_entries hcovers hrecorded' hkept⟩
  rcases List.mem_append.mp hfile with hdone | hthere
  · exact .inl (hdelivered (Worker.Relay.passed_of_mem_done hdone (h.tidy.not_missed h.orderly hrecorded')))
  by_cases hpassed : relay.Passed place
  · exact .inl (hdelivered hpassed)
  right
  obtain ⟨offset, hoffset⟩ := Option.isSome_iff_exists.mp h.serves.queue
  have hmem : place.file ∈ life.turn.files peer := h.listed_eq ▸ hthere
  refine (pending_iff h.serves.wellFormed).mpr
    ⟨offset, hoffset, lists_iff_mem_filesOf.mpr ⟨place.file, hmem, rfl⟩, fun hhead ↦ ?_⟩
  refine Nat.not_lt.mp fun hlt ↦ hpassed ⟨offset, .inr ?_, hlt⟩
  obtain ⟨first, hfirst, hseq⟩ := Option.map_eq_some_iff.mp hhead
  have hsame : first = place.file := by
    rw [(h.serves.listed first (List.mem_of_head? hfirst)).named, hseq, ← (h.serves.listed _ hmem).named]
  refine Worker.Scene.position?_eq_some_iff.mpr ⟨?_, ?_⟩
  · rw [h.listed_eq]
    exact hsame ▸ hfirst
  · show relay.turn.world.database.queues.offset? relay.turn.worker.key = _
    rw [h.world, h.key]
    exact hoffset

/-- The peer acknowledges what was read from files that were listed. -/
theorem Follows.listed_of_delivered (h : Follows queue schema original peer life relay)
    (hdelivered : life.Delivered place kept) : place.file ∈ life.listed := by
  obtain ⟨passage, hpassage, hcovers, -⟩ := hdelivered
  rw [h.acknowledged] at hpassage
  have hunderway := h.orderly.arrived passage (h.orderly.acknowledged passage hpassage)
  obtain ⟨-, offset, hreached, -⟩ := h.orderly.drawn passage hunderway
  obtain ⟨hfile, -, -⟩ := Passage.covers_iff.mp hcovers
  rw [hfile] at hreached
  refine (h.listed place.file).mpr (List.mem_append.mpr ?_)
  exact hreached.file_mem.imp_right List.mem_of_head?

/-- Of the node's log no other file has the number. -/
theorem Follows.listed_of_lists (h : Follows queue schema original peer life relay)
    (hnamed : place.file = logFile life.turn.engine.node place.file.seq)
    (hlists : life.turn.tables.lists (life.turn.own peer) place.file.seq = true) : place.file ∈ life.listed := by
  obtain ⟨file, hfile, hseq⟩ := lists_iff_mem_filesOf.mp hlists
  have hsame : file = place.file := by rw [(h.serves.listed file hfile).named, hseq, ← hnamed]
  refine (h.listed place.file).mpr (List.mem_append_right _ ?_)
  rw [h.listed_eq, ← hsame]
  exact hfile

end Records

end Lifetime

end Engine

end LogShipping
