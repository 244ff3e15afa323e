import LogShipping.Proofs.Engine.Course
import LogShipping.Proofs.Log.Records
import LogShipping.Proofs.Worker.Delivery
import Mathlib.Data.List.Nodup

/-!
# What a decommissioned node leaves unshipped

A decommissioned engine drops those of its queues that it finds drained. It judges a queue by the files
that are listed on it, while the log of its node may have newer ones: files whose notices the engine has
not come to when it stops following its feeds, or that it will never be told of. So a queue is dropped
although there is still something to ship if and only if what is listed on it is drained and a newer file
of the log holds something for the peer.
-/

namespace LogShipping

/-- Where a file goes on behind the queue's position, if it does. A queue on which no file is listed has
the whole log before it. -/
def Queue.goesOn? (queue : Queue) (file : FileRef) : Option Nat :=
  match queue.position? with
  | none => some 0
  | some position =>
    if file.seq < position.seq then none
    else if file.seq = position.seq then some position.offset
    else some 0

namespace Engine.Turn

/-! ## What is left to ship -/

/-- The octets of a file of the node's log, up to the committed end of the log. -/
def extent (turn : Turn) (file : FileRef) : Bytes :=
  let content := (Log.content? turn.world.directory file).getD []
  match turn.world.activeLog turn.engine.node with
  | none => content
  | some (active, committed) =>
    if file.seq < active.seq then content
    else if file.seq = active.seq then content.take committed
    else []

/-- What is decoded of a file from an offset on has a record with cells of global scope. -/
def HoldsGlobal (turn : Turn) (file : FileRef) (offset : Nat) : Prop :=
  ∃ frame ∈ (Log.decodeStretch ((turn.extent file).drop offset)).frames,
    ∃ entry kept, frame.2 = .ok entry ∧ entry.filter turn.world.schema = some kept

/-- Behind the position of the node's queue for a peer the log has a record of global scope. -/
def Unshipped (turn : Turn) (peer : String) (log : List FileRef) : Prop :=
  ∃ queue, turn.world.database.queues.get? (turn.own peer) = some queue ∧
    ∃ file ∈ log, ∃ offset, queue.goesOn? file = some offset ∧ turn.HoldsGlobal file offset

/-- The files of the node's log in their order. What is listed on the queue is part of it. -/
structure Logs (turn : Turn) (peer : String) (log : List FileRef) : Prop where
  ascending : log.Pairwise (·.seq < ·.seq)
  listed : ∀ file ∈ turn.world.database.queues.filesOf (turn.own peer), file ∈ log

/-- The engine, when it is decommissioned, reports that it dropped the node's queue for a peer. -/
def Drops (turn : Turn) (peer : String) : Prop :=
  ∃ farewell, turn.decommission.1 = .ok farewell ∧ turn.own peer ∈ farewell.dropped

/-- The end of a file as the engine sees it: the committed length while it is being written. -/
def limit (turn : Turn) (file : FileRef) : Nat :=
  let length := ((Log.content? turn.world.directory file).getD []).length
  match turn.world.activeLog turn.engine.node with
  | some (active, committed) => if active.seq = file.seq then committed else length
  | none => length

/-- One file at most is listed on the node's queue for a peer, and the queue stands at the end of it. -/
def Drained (turn : Turn) (peer : String) : Prop :=
  ∃ queue, turn.world.database.queues.get? (turn.own peer) = some queue ∧ queue.hasNext = false ∧
    ∀ file, queue.head? = some file → turn.limit file ≤ queue.offset

theorem length_extent_le_limit (turn : Turn) (file : FileRef) :
    (turn.extent file).length ≤ turn.limit file := by
  unfold extent limit
  cases turn.world.activeLog turn.engine.node with
  | none => exact Nat.le_refl _
  | some active =>
    dsimp only
    split
    case isTrue hlt => exact Nat.le_of_eq (if_neg fun heq ↦ UInt64.lt_irrefl _ (heq ▸ hlt)).symm
    case isFalse =>
      split
      case isTrue heq =>
        rw [if_pos heq.symm]
        exact List.length_take_le _ _
      case isFalse hne =>
        rw [if_neg (Ne.symm hne)]
        exact Nat.zero_le _

/-- Nothing is behind the end of a file. -/
theorem not_holdsGlobal_of_limit_le {turn : Turn} {file : FileRef} {offset : Nat}
    (h : turn.limit file ≤ offset) : ¬turn.HoldsGlobal file offset := by
  have hnothing : (turn.extent file).drop offset = [] :=
    List.drop_eq_nil_iff.mpr (Nat.le_trans (length_extent_le_limit turn file) h)
  have hframes : (Log.decodeStretch []).frames = [] :=
    List.map_eq_nil_iff.mp (Log.records_nil_iff.mpr rfl).1
  rintro ⟨frame, hframe, -⟩
  rw [hnothing, hframes] at hframe
  cases hframe

theorem hasBacklog_eq_false_iff (turn : Turn) {queue : Queue} (hown : queue.key.isRecovered = false) :
    turn.hasBacklog queue = false ↔
      queue.hasNext = false ∧ ∀ file, queue.head? = some file → turn.limit file ≤ queue.offset := by
  unfold hasBacklog
  cases queue.hasNext with
  | true => exact iff_of_false Bool.noConfusion fun h ↦ Bool.noConfusion h.1
  | false =>
    cases queue.head? with
    | none => exact iff_of_true rfl ⟨rfl, fun _ hnone ↦ by cases hnone⟩
    | some file =>
      simp only [Option.some.injEq, forall_eq', true_and]
      unfold limit Log.content?
      rcases turn.world.directory.open? file.path with _ | _ | _ <;>
        cases turn.world.activeLog turn.engine.node <;> simp [hown]

/-! ## What the engine drops -/

section Drops

variable {turn after : Turn} {peer : String}

/-- What the engine judges the backlog of a queue by, apart from the queue. -/
def outlook (turn : Turn) : Directory × Option (FileRef × Nat) :=
  (turn.world.directory, turn.world.activeLog turn.engine.node)

theorem hasBacklog_congr (h : after.outlook = turn.outlook) (queue : Queue) :
    after.hasBacklog queue = turn.hasBacklog queue := by
  obtain ⟨hdirectory, hactive⟩ := Prod.mk.inj h
  unfold hasBacklog
  rw [hdirectory, hactive]

theorem directory_dismissAll (turn : Turn) (workers : List Worker) :
    (turn.dismissAll workers).world.directory = turn.world.directory := by
  unfold dismissAll
  induction workers generalizing turn with
  | nil => rfl
  | cons worker rest ih =>
    have hfirst : (turn.dismiss worker).world.directory = turn.world.directory :=
      congrArg (·.directory) (Worker.Turn.scene_stop ⟨turn.world, turn.engine.facilities, worker⟩)
    exact (ih (turn.dismiss worker)).trans hfirst

theorem outlook_dismissAll (turn : Turn) (workers : List Worker) :
    (turn.dismissAll workers).outlook = turn.outlook :=
  Prod.ext (directory_dismissAll turn workers)
    (congrArg (·.storage.active) (ground_dismissAll turn workers))

/-- The queues of which nothing is left to ship are dropped, one after the other. -/
theorem dropDrained_ok (hup : turn.world.database.reachable = true) (farewell : Farewell)
    (keys : List QueueKey) :
    ∃ final, (turn.dropDrained farewell keys).1 = .ok final ∧
      ∀ key, key ∈ final.dropped ↔ key ∈ farewell.dropped ∨ (key ∈ keys ∧
        ∃ queue, turn.world.database.queues.get? key = some queue ∧ turn.hasBacklog queue = false) := by
  induction keys generalizing turn farewell with
  | nil => exact ⟨farewell, rfl, fun key ↦ by simp⟩
  | cons first rest ih =>
    unfold dropDrained Database.query
    rw [if_pos hup]
    dsimp only
    cases hget : turn.world.database.queues.get? first with
    | none =>
      obtain ⟨final, hfinal, hdropped⟩ := ih hup farewell
      refine ⟨final, hfinal, fun key ↦ (hdropped key).trans (or_congr_right ?_)⟩
      rw [List.mem_cons]
      refine ⟨fun ⟨hmem, hqueue⟩ ↦ ⟨.inr hmem, hqueue⟩, ?_⟩
      rintro ⟨rfl | hmem, queue, hqueue, hdrained⟩
      · rw [hget] at hqueue
        cases hqueue
      · exact ⟨hmem, queue, hqueue, hdrained⟩
    | some queue =>
      dsimp only
      split
      case isTrue hbacklog =>
        obtain ⟨final, hfinal, hdropped⟩ := ih hup { farewell with retained := farewell.retained ++ [first] }
        refine ⟨final, hfinal, fun key ↦ (hdropped key).trans (or_congr_right ?_)⟩
        rw [List.mem_cons]
        refine ⟨fun ⟨hmem, hqueue⟩ ↦ ⟨.inr hmem, hqueue⟩, ?_⟩
        rintro ⟨rfl | hmem, other, hother, hdrained⟩
        · rw [hget] at hother
          rw [← Option.some.inj hother, hbacklog] at hdrained
          cases hdrained
        · exact ⟨hmem, other, hother, hdrained⟩
      case isFalse hdrained =>
        obtain ⟨offset, hoffset, -⟩ := QueueTables.get?_eq_some_iff.mp hget
        rcases turn.world.dropQueue_cases first with ⟨feed, hdrop⟩ | ⟨error, -, hdown⟩
        case inr => rw [hup] at hdown; cases hdown
        rw [hdrop, hoffset]
        dsimp only [Option.isSome_some]
        rw [if_pos rfl]
        generalize hlater : (⟨{ turn.world.withQueues (turn.world.database.queues.remove first) with
          queueFeed := feed }, turn.engine⟩ : Turn) = later
        have hqueues : later.world.database.queues = turn.world.database.queues.remove first := by
          rw [← hlater]
          rfl
        have houtlook : later.outlook = turn.outlook := by
          rw [← hlater]
          rfl
        have hstill : later.world.database.reachable = true := by
          rw [← hlater]
          exact hup
        obtain ⟨final, hfinal, hdropped⟩ := ih hstill { farewell with dropped := farewell.dropped ++ [first] }
        refine ⟨final, hfinal, fun key ↦ (hdropped key).trans ?_⟩
        rw [hqueues, List.mem_append, List.mem_singleton, List.mem_cons, or_assoc]
        refine or_congr_right ?_
        by_cases hkey : key = first
        · subst hkey
          exact ⟨fun _ ↦ ⟨.inl rfl, queue, hget, Bool.not_eq_true _ ▸ hdrained⟩, fun _ ↦ .inl rfl⟩
        · simp only [hkey, false_or, QueueTables.get?_remove_of_ne _ hkey, hasBacklog_congr houtlook]

/-- The node's queue for a peer is dropped if and only if it is drained and can be reached. -/
theorem drops_iff (turn : Turn) (peer : String) :
    turn.Drops peer ↔ turn.world.database.reachable = true ∧ turn.Drained peer := by
  have hground : (turn.setState .shuttingDown).quiesce.ground = turn.ground :=
    ground_dismissAll (turn.setState .shuttingDown) turn.engine.workers
  have houtlook : (turn.setState .shuttingDown).quiesce.outlook = turn.outlook :=
    outlook_dismissAll (turn.setState .shuttingDown) turn.engine.workers
  have hqueues := congrArg Ground.queues hground
  have hreachable := congrArg Ground.reachable hground
  have hnode := congrArg Ground.node hground
  unfold Drops decommission Database.query
  dsimp only
  generalize (turn.setState .shuttingDown).quiesce = quiet at *
  change quiet.world.database.queues = turn.world.database.queues at hqueues
  change quiet.world.database.reachable = turn.world.database.reachable at hreachable
  change quiet.engine.node = turn.engine.node at hnode
  by_cases hup : turn.world.database.reachable = true
  case neg =>
    rw [hreachable, if_neg hup]
    exact ⟨nofun, fun h ↦ absurd h.1 hup⟩
  rw [hreachable, if_pos hup]
  dsimp only
  obtain ⟨final, hfinal, hdropped⟩ := quiet.dropDrained_ok (hreachable.trans hup) ⟨[], []⟩
    (quiet.world.database.queues.keysOwnedBy quiet.engine.node)
  generalize quiet.dropDrained ⟨[], []⟩
    (quiet.world.database.queues.keysOwnedBy quiet.engine.node) = result at hfinal
  obtain ⟨answer, later⟩ := result
  obtain rfl : answer = .ok final := hfinal
  have hanswer : (∃ farewell, Except.ok (ε := Error) final = .ok farewell ∧
      turn.own peer ∈ farewell.dropped) ↔ turn.own peer ∈ final.dropped := by
    constructor
    · rintro ⟨farewell, heq, hmem⟩
      exact Except.ok.inj heq ▸ hmem
    · exact fun hmem ↦ ⟨final, rfl, hmem⟩
  refine hanswer.trans ((hdropped _).trans ?_)
  have hown : (turn.own peer).isRecovered = false := by
    rw [own, QueueKey.own, QueueKey.isRecovered, bne_self_eq_false]
  rw [or_iff_right List.not_mem_nil, QueueTables.mem_keysOwnedBy, hqueues, hnode]
  constructor
  · rintro ⟨-, queue, hqueue, hdrained⟩
    refine ⟨hup, queue, hqueue, ?_⟩
    obtain ⟨offset, -, rfl⟩ := QueueTables.get?_eq_some_iff.mp hqueue
    rw [hasBacklog_congr houtlook] at hdrained
    exact (hasBacklog_eq_false_iff turn hown).mp hdrained
  · rintro ⟨-, queue, hqueue, hdrained⟩
    obtain ⟨offset, hoffset, rfl⟩ := QueueTables.get?_eq_some_iff.mp hqueue
    refine ⟨⟨Option.isSome_of_eq_some hoffset, rfl⟩, _, hqueue, ?_⟩
    rw [hasBacklog_congr houtlook]
    exact (hasBacklog_eq_false_iff turn hown).mpr hdrained

end Drops

/-! ## What is dropped with it -/

section Unshipped

variable {turn : Turn} {peer : String} {log : List FileRef}

theorem Logs.eq_of_seq_eq (h : turn.Logs peer log) {x y : FileRef} (hx : x ∈ log) (hy : y ∈ log)
    (hseq : x.seq = y.seq) : x = y := by
  have hnodup : (log.map (·.seq)).Nodup :=
    List.pairwise_map.mpr (h.ascending.imp fun hlt ↦ UInt64.ne_of_lt hlt)
  exact List.inj_on_of_nodup_map hnodup hx hy hseq

/-- What is left to ship of a drained queue is in files newer than the one that is listed. -/
theorem unshipped_iff_of_drained (hlog : turn.Logs peer log) (hdrained : turn.Drained peer) :
    turn.Unshipped peer log ↔ ∃ file ∈ log,
      (∀ listed ∈ turn.world.database.queues.filesOf (turn.own peer), listed.seq < file.seq) ∧
        turn.HoldsGlobal file 0 := by
  obtain ⟨queue, hqueue, hnext, hend⟩ := hdrained
  obtain ⟨start, -, rfl⟩ := QueueTables.get?_eq_some_iff.mp hqueue
  have hlisted := hlog.listed
  have hunshipped : turn.Unshipped peer log ↔ ∃ file ∈ log, ∃ offset,
      Queue.goesOn? ⟨turn.own peer, turn.world.database.queues.filesOf (turn.own peer), start⟩ file =
        some offset ∧ turn.HoldsGlobal file offset := by
    refine ⟨fun ⟨other, hother, hrest⟩ ↦ ?_, fun hrest ↦ ⟨_, hqueue, hrest⟩⟩
    rwa [← Option.some.inj (hqueue.symm.trans hother)] at hrest
  rw [hunshipped]
  refine exists_congr fun file ↦ and_congr_right fun hfile ↦ ?_
  unfold Queue.goesOn? Queue.position? Queue.head? Queue.hasNext at *
  generalize turn.world.database.queues.filesOf (turn.own peer) = files at *
  match files with
  | [] => simp
  | [head] =>
    have hbehind : ¬turn.HoldsGlobal head start := not_holdsGlobal_of_limit_le (hend head rfl)
    simp only [List.head?_cons, Option.map_some, List.forall_mem_singleton]
    by_cases hold : file.seq < head.seq
    case pos =>
      rw [if_pos hold]
      exact ⟨fun ⟨_, hnone, _⟩ ↦ absurd hnone.symm (Option.some_ne_none _),
        fun h ↦ absurd h.1 (UInt64.lt_asymm hold)⟩
    rw [if_neg hold]
    by_cases hsame : file.seq = head.seq
    case pos =>
      obtain rfl := hlog.eq_of_seq_eq hfile (hlisted head List.mem_cons_self) hsame
      rw [if_pos rfl]
      refine ⟨fun ⟨offset, hoffset, hholds⟩ ↦ absurd hholds ?_, fun h ↦ absurd h.1 hold⟩
      rwa [← Option.some.inj hoffset]
    case neg =>
      rw [if_neg hsame]
      have hnew : head.seq < file.seq :=
        UInt64.lt_of_le_of_ne (UInt64.not_lt.mp hold) (Ne.symm hsame)
      exact ⟨fun ⟨offset, hoffset, hholds⟩ ↦ ⟨hnew, Option.some.inj hoffset ▸ hholds⟩,
        fun ⟨_, hholds⟩ ↦ ⟨0, rfl, hholds⟩⟩
  | _ :: _ :: _ => simp at hnext

/-- A queue is dropped although there is something left to ship if and only if what is listed on it is
drained and a newer file of the log has a record of global scope. -/
theorem drops_unshipped_iff (hlog : turn.Logs peer log) :
    (turn.Drops peer ∧ turn.Unshipped peer log) ↔
      turn.world.database.reachable = true ∧ turn.Drained peer ∧ ∃ file ∈ log,
        (∀ listed ∈ turn.world.database.queues.filesOf (turn.own peer), listed.seq < file.seq) ∧
          turn.HoldsGlobal file 0 := by
  rw [drops_iff, and_assoc]
  refine and_congr_right fun _ ↦ and_congr_right fun hdrained ↦ ?_
  exact unshipped_iff_of_drained hlog hdrained

end Unshipped

namespace Sample

open Worker.Sample (entry record)

/-- Node n ships its first file, in which nothing is written yet. -/
def running : Turn := Course.Sample.down.turn.start.2

/-- A record is written to the log of the node. -/
def written (turn : Turn) : Turn :=
  { turn with world :=
    ((Cluster.append? ⟨turn.world, []⟩ turn.engine.node record true).map (·.2.world)).getD turn.world }

/-- The second file is begun and written to, and the notices are still to come. -/
def unnoticed : Turn := written (running.roll false)

/-- The same once the engine was shut down. -/
def unheard : Turn := written (running.shutdown.roll false)

def first : FileRef := ⟨1, "n.0000000001.wal"⟩

def second : FileRef := ⟨2, "n.0000000002.wal"⟩

theorem logs_of_filesOf {turn : Turn}
    (hfiles : turn.world.database.queues.filesOf (turn.own "p") = [first]) :
    turn.Logs "p" [first, second] where
  ascending := by decide
  listed := by
    rw [hfiles]
    simp

theorem drops_of_toOption {turn : Turn} (hnode : turn.engine.node = "n")
    (h : turn.decommission.1.toOption = some ⟨[.own "n" "p"], []⟩) : turn.Drops "p" := by
  have hkey : turn.own "p" = .own "n" "p" := congrArg (QueueKey.own · "p") hnode
  cases hanswer : turn.decommission.1 with
  | error error =>
    rw [hanswer] at h
    cases h
  | ok farewell =>
    rw [hanswer] at h
    refine ⟨farewell, hanswer, ?_⟩
    rw [Option.some.inj h, hkey]
    exact List.mem_cons_self

theorem holdsGlobal_of_extent {turn : Turn} {file : FileRef} (hextent : turn.extent file = record)
    (hglobal : turn.world.schema.isGlobal "t" "f" = true) : turn.HoldsGlobal file 0 := by
  have hframe : Frame.decode record = .complete (record.drop 8) 42 := by decide +kernel
  have hkept : entry.filter turn.world.schema = some entry := by simp [Entry.filter, entry, hglobal]
  unfold HoldsGlobal
  rw [hextent, List.drop_zero, Log.decodeStretch_of_complete hframe]
  exact ⟨_, List.mem_cons_self, entry, entry, rfl, hkept⟩

end Sample

/-- Nothing is lost where no file was begun after the one that is listed. -/
theorem not_unshipped_without_newer :
    Sample.running.Logs "p" [Sample.first] ∧ Sample.running.Drops "p" ∧
      ¬Sample.running.Unshipped "p" [Sample.first] := by
  have hfiles : Sample.running.world.database.queues.filesOf (Sample.running.own "p") =
      [Sample.first] := by decide +kernel
  have hlog : Sample.running.Logs "p" [Sample.first] :=
    ⟨List.pairwise_singleton _ _, by rw [hfiles]; exact fun _ ↦ id⟩
  have hdrops : Sample.running.Drops "p" := Sample.drops_of_toOption (by decide +kernel) (by decide +kernel)
  refine ⟨hlog, hdrops, fun hunshipped ↦ ?_⟩
  obtain ⟨-, -, file, hfile, hnew, -⟩ := (drops_unshipped_iff hlog).mp ⟨hdrops, hunshipped⟩
  rw [hfiles] at hnew
  exact absurd (hnew Sample.first List.mem_cons_self)
    (List.mem_singleton.mp hfile ▸ UInt64.lt_irrefl _)

/-- A running engine that is decommissioned before it takes the notice of a new file drops a queue for
which there is a record in that file, and so does one that was shut down before. -/
theorem drops_unshipped_before_notice :
    Sample.unnoticed.engine.isRunning = true ∧
      ∀ turn ∈ [Sample.unnoticed, Sample.unheard], turn.Logs "p" [Sample.first, Sample.second] ∧
        turn.world.activeLog turn.engine.node = some (Sample.second, 42) ∧
        turn.Drops "p" ∧ turn.Unshipped "p" [Sample.first, Sample.second] := by
  have hlost (turn : Turn) (hqueue : turn.world.database.queues.get? (turn.own "p") =
        some ⟨.own "n" "p", [Sample.first], 0⟩)
      (hextent : turn.extent Sample.second = Worker.Sample.record)
      (hglobal : turn.world.schema.isGlobal "t" "f" = true) :
      turn.Logs "p" [Sample.first, Sample.second] ∧ turn.Unshipped "p" [Sample.first, Sample.second] := by
    obtain ⟨_, -, hfiles⟩ := QueueTables.get?_eq_some_iff.mp hqueue
    refine ⟨Sample.logs_of_filesOf (congrArg Queue.files hfiles).symm, _, hqueue, Sample.second,
      by simp, 0, rfl, Sample.holdsGlobal_of_extent hextent hglobal⟩
  refine ⟨by decide +kernel, ?_⟩
  simp only [List.mem_cons, List.not_mem_nil, or_false, forall_eq_or_imp, forall_eq]
  obtain ⟨hlogs, hunshipped⟩ := hlost Sample.unnoticed (by decide +kernel) (by decide +kernel)
    (by decide +kernel)
  obtain ⟨hlater, hleft⟩ := hlost Sample.unheard (by decide +kernel) (by decide +kernel)
    (by decide +kernel)
  have hdrops : Sample.unnoticed.Drops "p" :=
    Sample.drops_of_toOption (by decide +kernel) (by decide +kernel)
  have hgone : Sample.unheard.Drops "p" :=
    Sample.drops_of_toOption (by decide +kernel) (by decide +kernel)
  exact ⟨⟨hlogs, by decide +kernel, hdrops, hunshipped⟩, hlater, by decide +kernel, hgone, hleft⟩

end Engine.Turn

end LogShipping
