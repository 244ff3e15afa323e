import LogShipping.Proofs.Engine.Lifetime
import LogShipping.Proofs.Failover.Rivals

/-!
# What survives the death of a node

A node dies at any moment of its life, and a survivor whose cache holds the peer goes through its queues. A
record of the node's log in a file that was on the node's own queue for the peer at some time has been
acknowledged by the peer, or is due to it. A record in a file that never was is neither, unless another node
has a queue with the same file.
-/

namespace LogShipping

namespace QueueTables

variable {tables after : QueueTables} {key : QueueKey} {peer origin : String} {seq : UInt64}

/-- The number is listed for the peer on a queue with the origin's log, of whichever node. -/
def ListedFor (tables : QueueTables) (peer origin : String) (seq : UInt64) : Prop :=
  ∃ owner, tables.lists ⟨owner, peer, origin⟩ seq = true

theorem listedFor_of_due (wf : tables.WellFormed) {offset : Nat} (h : tables.Due peer origin ⟨seq, offset⟩) :
    tables.ListedFor peer origin seq := by
  obtain ⟨owner, hpending⟩ := h
  obtain ⟨_, -, hlists, -⟩ := (pending_iff wf).mp hpending
  exact ⟨owner, hlists⟩

theorem listedFor_of_remove (h : (tables.remove key).ListedFor peer origin seq) :
    tables.ListedFor peer origin seq := by
  obtain ⟨owner, hlists⟩ := h
  rw [lists_remove, Bool.and_eq_true] at hlists
  exact ⟨owner, hlists.1⟩

/-- To hand a queue over lists nothing new for a peer. -/
theorem listedFor_of_handOver {node : String} (hover : tables.handOver key node = .ok after)
    (h : after.ListedFor peer origin seq) : tables.ListedFor peer origin seq := by
  obtain ⟨owner, hlists⟩ := h
  have hmoved (htarget : ⟨owner, peer, origin⟩ = key.withOwner node) (hkey : tables.lists key seq = true) :
      tables.ListedFor peer origin seq := by
    cases htarget
    exact ⟨key.owner, hkey⟩
  obtain ⟨offset, -, ⟨-, rfl⟩ | ⟨there, -, -, rfl⟩⟩ := handOver_eq_ok_iff.mp hover
  · rcases (lists_rename ..).mp hlists with ⟨htarget, hkey⟩ | ⟨-, hsame⟩
    · exact hmoved htarget hkey
    · exact ⟨owner, hsame⟩
  · rw [merge, lists_remove, Bool.and_eq_true, lists_setOffset, lists_foldl_addMissing] at hlists
    rcases hlists.1 with hsame | ⟨htarget, hkey⟩
    · exact ⟨owner, hsame⟩
    · exact hmoved htarget (lists_iff_mem_filesOf.mpr hkey)

end QueueTables

namespace Failover

open Pass

/-- What a pass keeps if it is kept when a queue of an unknown peer is dropped, and when a queue is handed
over to another node. -/
theorem Pass.keeps_runFor (condition : QueueTables → Prop) {registry : Registry}
    (hremove : ∀ tables key, tables.WellFormed → registry.contains key.peer = false → condition tables →
      condition (tables.remove key))
    (hhandOver : ∀ tables key node after, tables.WellFormed → after.WellFormed → node ≠ key.owner →
      tables.handOver key node = .ok after → condition tables → condition after)
    (steps : Nat) (turn : Pass.Turn) (hothers : turn.pass.OffersOthers)
    (h : turn.database.queues.WellFormed ∧ condition turn.database.queues) :
    (runFor registry steps turn).database.queues.WellFormed ∧
      condition (runFor registry steps turn).database.queues := by
  induction steps generalizing turn with
  | zero => exact h
  | succ steps ih =>
    rw [runFor]
    split
    case h_1 => exact h
    case h_2 =>
      obtain ⟨hwf, hcondition⟩ := h
      refine ih _ (hothers.step registry turn.database turn.membership) ?_
      dsimp only
      rcases Pass.step_cases hothers registry turn.database turn.membership with
        ⟨hsame, -⟩ | ⟨key, hlacks, hdrop, -⟩ | ⟨key, node, hne, hover, -⟩
      · rw [hsame]
        exact ⟨hwf, hcondition⟩
      · rw [hdrop]
        exact ⟨hwf.remove key, hremove _ key hwf hlacks hcondition⟩
      · have hafter := hwf.perform (.handOver key node) hover
        exact ⟨hafter, hhandOver _ key node _ hwf hafter hne hover hcondition⟩

section Death

variable {registry : Registry} {database : Database} (hwf : database.queues.WellFormed)
  (membership : Membership) (node : String) {peer origin : String}

include hwf

/-- What is due to a peer that the cache holds stays due. -/
theorem due_handleNodeDeath (hknown : registry.contains peer = true) {position : LogPosition}
    (h : database.queues.Due peer origin position) :
    (handleNodeDeath registry database membership node).database.queues.Due peer origin position := by
  refine (keeps_runFor (·.Due peer origin position) (fun tables key hwf hlacks ↦ ?_)
    (fun tables key owner after hwf hafter hne hover ↦ QueueTables.due_handOver hwf hafter hover hne)
    _ ⟨.asking node, database, membership, []⟩ trivial ⟨hwf, h⟩).2
  refine QueueTables.due_remove hwf ?_
  rintro rfl
  rw [hknown] at hlacks
  cases hlacks

/-- What was not listed for the peer is not due to it. -/
theorem listedFor_of_handleNodeDeath {seq : UInt64} {offset : Nat}
    (h : (handleNodeDeath registry database membership node).database.queues.Due peer origin ⟨seq, offset⟩) :
    database.queues.ListedFor peer origin seq := by
  by_contra hnot
  have hkept := keeps_runFor (¬ ·.ListedFor peer origin seq)
    (fun tables key _ (_ : registry.contains key.peer = false) hnone hlisted ↦
      hnone (QueueTables.listedFor_of_remove hlisted))
    (fun tables key owner after _ _ _ hover hnone hlisted ↦ hnone (QueueTables.listedFor_of_handOver hover hlisted))
    (stepsFor database membership) ⟨.asking node, database, membership, []⟩ trivial ⟨hwf, hnot⟩
  exact hkept.2 (QueueTables.listedFor_of_due hkept.1 h)

end Death

end Failover

namespace Engine.Lifetime

open Failover

/-- A record in a file that was on the node's own queue for a peer at some time of the node's life has been
acknowledged by the peer when the node dies, or is due to it once a survivor that knows the peer has gone
through the queues. A record in any other file of the node's log is neither, unless another node has a queue
with this file. -/
theorem survives_iff_listed {turn : Turn} {peer : String} (hopening : Opening peer turn) {queue : Queue}
    (hqueue : turn.tables.get? (turn.own peer) = some queue) {life : Lifetime}
    (hleads : Leads peer (.opening peer turn) life) {registry : Registry}
    (hknown : registry.contains peer = true) (membership : Membership) {place : LogPlace} {entry kept : Entry}
    (hnamed : place.file = Log.logFile life.turn.engine.node place.file.seq)
    (hrecorded : Worker.Recorded queue life.turn.world.directory place entry)
    (hkept : entry.filter turn.world.schema = some kept) :
    let heirs := (handleNodeDeath registry life.turn.world.database membership
      life.turn.engine.node).database.queues
    let position : LogPosition := ⟨place.file.seq, place.offset⟩
    (place.file ∈ life.listed →
      life.Delivered place kept ∨ heirs.Due peer life.turn.engine.node position) ∧
    (place.file ∉ life.listed → ¬life.Delivered place kept ∧
      (heirs.Due peer life.turn.engine.node position → ∃ owner ≠ life.turn.engine.node,
        life.turn.tables.lists ⟨owner, peer, life.turn.engine.node⟩ place.file.seq = true)) := by
  obtain ⟨relay, hfollows⟩ := (hopening.follows hqueue (.remote peer) 0 ⟨peer, 0⟩).leads hleads
  have hwf := hfollows.serves.wellFormed
  refine ⟨fun hlisted ↦ ?_, fun hunlisted ↦ ⟨fun hdelivered ↦ ?_, fun hdue ↦ ?_⟩⟩
  · refine (hfollows.delivered_or_pending hrecorded hkept hlisted).imp_right fun hpending ↦ ?_
    exact due_handleNodeDeath hwf membership _ hknown ⟨life.turn.engine.node, hpending⟩
  · exact hunlisted (hfollows.listed_of_delivered hdelivered)
  · obtain ⟨owner, hlists⟩ := listedFor_of_handleNodeDeath hwf membership _ hdue
    refine ⟨owner, ?_, hlists⟩
    rintro rfl
    exact hunlisted (hfollows.listed_of_lists hnamed hlists)

namespace Sample

open Worker.Sample (record entry)

/-- The first file of node n is empty and listed, and node s is there too. -/
def world : World :=
  { Course.Sample.world with
    directory := ⟨[("n.0000000001.wal", [])]⟩
    membership := ⟨["n", "s"], []⟩ }

def running : Turn := (Turn.start ⟨world, Course.Sample.engine⟩).2

def queue : Queue := ⟨.own "n" "p", [⟨1, "n.0000000001.wal"⟩], 0⟩

def rolled : Turn := running.roll false

/-- The engine has come to the notice of the second file. -/
def noticed : Turn := rolled.nextEvent?.getD rolled

def appended (turn : Turn) : Turn := (turn.append? record).getD turn

/-- An entry is written and committed. -/
def written (life : Lifetime) : Lifetime :=
  (life.goOn "p" (appended life.turn)).goOn "p" ((appended life.turn).commit 42)

/-- Node n dies before its engine has come to the notice. -/
def cutOff : Lifetime := written ((opening "p" running).goOn "p" rolled)

/-- Where the entry stands. -/
def place : LogPlace := ⟨Log.logFile "n" 2, 0⟩

/-- What is left when node s has gone through the queues of node n. -/
def heirs (life : Lifetime) : QueueTables :=
  (handleNodeDeath world.registry life.turn.world.database ⟨["s"], []⟩ "n").database.queues

def rolled? : LogEvent → Option FileRef
  | .rolled file => some file
  | .appended .. => none

/-- The files that are told of, and those listed on any queue. -/
def known (turn : Turn) : List FileRef :=
  (turn.log.active.map (·.1)).toList ++ turn.log.feed.kept.filterMap rolled? ++ turn.tables.files.map (·.2)

theorem mem_known {turn : Turn} {file : FileRef} (h : turn.Told file ∨ file ∈ turn.files "p") :
    file ∈ known turn := by
  rcases h with (⟨committed, hactive⟩ | hkept) | hlisted
  · refine List.mem_append_left _ (List.mem_append_left _ (Option.mem_toList.mpr ?_))
    exact Option.map_eq_some_iff.mpr ⟨_, hactive, rfl⟩
  · exact List.mem_append_left _ (List.mem_append_right _ (List.mem_filterMap.mpr ⟨_, hkept, rfl⟩))
  · exact List.mem_append_right _ (List.mem_map.mpr ⟨_, QueueTables.mem_filesOf.mp hlisted, rfl⟩)

theorem readable_of_known {turn : Turn}
    (h : (known turn).all (fun file ↦ (Log.content? turn.world.directory file).isSome) = true) :
    turn.Readable "p" := fun file hfile ↦ List.all_eq_true.mp h file (mem_known hfile)

theorem reachable_world : world.database.queues.Reachable :=
  ⟨[.create (.own "n" "p") (some (⟨1, "n.0000000001.wal"⟩, 0))], rfl⟩

theorem opening_running : Opening "p" running := by
  have htables : running.tables = world.database.queues := by decide +kernel
  have hlog : running.log = world.storage "n" := by decide +kernel
  have hbegan {file : FileRef} (h : running.Told file ∨ file ∈ running.files "p") :
      running.log.Began running.engine.node file := by
    have hknown : known running = [⟨1, "n.0000000001.wal"⟩, ⟨1, "n.0000000001.wal"⟩] := by decide +kernel
    have hmem := mem_known h
    rw [hknown] at hmem
    obtain rfl : file = ⟨1, "n.0000000001.wal"⟩ := by simpa using hmem
    exact ⟨by decide +kernel, by decide +kernel⟩
  have hreachable : running.tables.Reachable := htables ▸ reachable_world
  have hordered : running.log.Ordered := by
    rw [hlog]
    refine ⟨by decide, fun file committed hactive ↦ ?_, fun file hfile ↦ (List.not_mem_nil hfile).elim⟩
    cases hactive
    decide
  refine ⟨hreachable, ⟨hreachable.wellFormed, hordered, fun _ hfile ↦ hbegan (.inl hfile),
    fun _ hfile ↦ hbegan (.inr hfile), by decide +kernel, by decide +kernel, by decide +kernel,
    by decide +kernel⟩, fun worker hworker _ ↦ ?_⟩
  have hready : (running.engine.workers.all fun worker ↦ worker.phase matches .ready) = true := by decide +kernel
  have hphase := List.all_eq_true.mp hready worker hworker
  split at hphase
  case h_1 hthere => rw [hthere]; trivial
  case h_2 => cases hphase

/-- What is written to the file that was begun last. -/
theorem leads_written {life : Lifetime} (hsome : (life.turn.append? record).isSome = true)
    (hbefore : life.turn.Readable "p") (hafter : (appended life.turn).Readable "p")
    (hempty : ((appended life.turn).log.active.all fun active ↦ active.2 ≤ 42) = true) :
    Leads "p" life (written life) := by
  have happend : life.turn.append? record = some (appended life.turn) := by
    obtain ⟨turn, hturn⟩ := Option.isSome_iff_exists.mp hsome
    rw [appended, hturn]
    rfl
  refine .tail (.single ⟨hbefore, .append life happend⟩) ⟨hafter, .commit _ 42 fun file committed hactive ↦ ?_⟩
  change (appended life.turn).log.active = some (file, committed) at hactive
  rw [hactive, Option.all_some, decide_eq_true_eq] at hempty
  exact hempty

theorem recorded {turn : Turn} (hcontent : Log.content? turn.world.directory place.file = some record) :
    Worker.Recorded queue turn.world.directory place entry := by
  have hframe : Frame.decode (record.drop 0) = .complete (record.drop 8) 42 := by decide +kernel
  exact ⟨record, hcontent, [], 42, .nil 0, .singleton hframe rfl⟩

end Sample

/-- If the engine comes to the notice of the second file before it dies, what is written to this file is
due. -/
theorem survives_once_noticed :
    Opening "p" Sample.running ∧ ∃ life, Leads "p" (.opening "p" Sample.running) life ∧
      Sample.place.file ∈ life.listed ∧
      Worker.Recorded Sample.queue life.turn.world.directory Sample.place Worker.Sample.entry ∧
      (life.Delivered Sample.place Worker.Sample.entry ∨ (Sample.heirs life).Due "p" "n" ⟨2, 0⟩) := by
  have hopening := Sample.opening_running
  have hrolled : Leads "p" (.opening "p" Sample.running) ((opening "p" Sample.running).goOn "p" Sample.rolled) :=
    .single ⟨Sample.readable_of_known (by decide +kernel), .roll _ false (by decide +kernel)⟩
  have hserves : Sample.rolled.Serves "p" := (hopening.serves.roll (by decide +kernel)).2
  have hnext : Sample.rolled.nextEvent? = some Sample.noticed := by
    obtain ⟨next, hsome⟩ := Option.isSome_iff_exists.mp
      (show Sample.rolled.nextEvent?.isSome = true by decide +kernel)
    rw [Sample.noticed, hsome]
    rfl
  obtain ⟨life, hnoticed, hturn, -, -, hlisted, -⟩ :=
    leads_deeds ((opening "p" Sample.running).goOn "p" Sample.rolled) hserves
      (Sample.readable_of_known (by decide +kernel)) (fun _ hfile ↦ List.mem_append_right _ hfile)
      (Turn.deeds_nextEvent? _ hnext)
  have hwritten : Leads "p" life (Sample.written life) := by
    refine Sample.leads_written ?_ ?_ ?_ ?_ <;> rw [hturn]
    · decide +kernel
    · exact Sample.readable_of_known (by decide +kernel)
    · exact Sample.readable_of_known (by decide +kernel)
    · decide +kernel
  have hleads := (hrolled.trans hnoticed).trans hwritten
  have hthere : Sample.place.file ∈ (Sample.written life).listed := by
    refine List.mem_append_left _ (List.mem_append_left _ (hlisted _ ?_))
    exact QueueTables.mem_filesOf.mpr
      (by decide +kernel : (Sample.noticed.own "p", Sample.place.file) ∈ Sample.noticed.tables.files)
  have hrecorded : Worker.Recorded Sample.queue (Sample.written life).turn.world.directory Sample.place
      Worker.Sample.entry := by
    refine Sample.recorded ?_
    show Log.content? ((Sample.appended life.turn).commit 42).world.directory Sample.place.file = _
    rw [hturn]
    decide +kernel
  have hnode : (Sample.written life).turn.engine.node = "n" := by
    show (Sample.appended life.turn).engine.node = "n"
    rw [hturn]
    decide +kernel
  have hqueue : Sample.running.tables.get? (Sample.running.own "p") = some Sample.queue := by decide +kernel
  have hknown : Sample.world.registry.contains "p" = true := by decide +kernel
  have hsurvives := (survives_iff_listed hopening hqueue hleads hknown ⟨["s"], []⟩ (by rw [hnode]; rfl) hrecorded
    (by decide +kernel : Worker.Sample.entry.filter Sample.running.world.schema = some Worker.Sample.entry)).1
    hthere
  rw [hnode] at hsurvives
  exact ⟨hopening, Sample.written life, hleads, hthere, hrecorded, hsurvives⟩

/-- If it dies before, what was written to this file and committed is lost, although node s takes the queue
over. -/
theorem lost_before_notice :
    Opening "p" Sample.running ∧ Leads "p" (.opening "p" Sample.running) Sample.cutOff ∧
      Sample.cutOff.turn.Readable "p" ∧ Sample.cutOff.turn.nextEvent?.isSome = true ∧
      Sample.cutOff.turn.log.active = some (Sample.place.file, 42) ∧
      Worker.Recorded Sample.queue Sample.cutOff.turn.world.directory Sample.place Worker.Sample.entry ∧
      Worker.Sample.entry.filter Sample.world.schema = some Worker.Sample.entry ∧
      (Sample.heirs Sample.cutOff).offset? ⟨"s", "p", "n"⟩ = some 0 ∧
      ¬(Sample.cutOff.Delivered Sample.place Worker.Sample.entry ∨
        (Sample.heirs Sample.cutOff).Due "p" "n" ⟨2, 0⟩) := by
  have hopening := Sample.opening_running
  have hrolled : Leads "p" (.opening "p" Sample.running) ((opening "p" Sample.running).goOn "p" Sample.rolled) :=
    .single ⟨Sample.readable_of_known (by decide +kernel), .roll _ false (by decide +kernel)⟩
  have hleads : Leads "p" (.opening "p" Sample.running) Sample.cutOff := by
    exact hrolled.trans (Sample.leads_written (by decide +kernel) (Sample.readable_of_known (by decide +kernel))
      (Sample.readable_of_known (by decide +kernel)) (by decide +kernel))
  refine ⟨hopening, hleads, Sample.readable_of_known (by decide +kernel), by decide +kernel, by decide +kernel,
    Sample.recorded (by decide +kernel), by decide +kernel, by decide +kernel, ?_⟩
  rintro (⟨passage, hpassage, -⟩ | hdue)
  · exact List.not_mem_nil hpassage
  · have htables : Sample.cutOff.turn.tables = Sample.world.database.queues := by decide +kernel
    have hwf : Sample.cutOff.turn.tables.WellFormed := htables ▸ Sample.reachable_world.wellFormed
    obtain ⟨owner, hlists⟩ := listedFor_of_handleNodeDeath hwf _ _ hdue
    obtain ⟨file, hmem, hseq⟩ := QueueTables.lists_iff.mp hlists
    have hothers : ∀ row ∈ Sample.cutOff.turn.tables.files, row.2.seq ≠ 2 := by decide +kernel
    exact hothers _ hmem hseq

end Engine.Lifetime

end LogShipping
