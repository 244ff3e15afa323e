import LogShipping.Proofs.Engine.Upkeep
import LogShipping.Proofs.Log.Names
import LogShipping.Proofs.Worker.RelaySteps

/-!
# Files are taken off at their end

The worker of a node's own queue takes a file off only when the node has begun to write another one, when
that one is listed behind it, and when no record is left in the file. A node writes to one file at a time and
never goes back to an earlier one. So as long as the listed files are there no record is missed: where a file
was taken off, it ends for good.
-/

namespace LogShipping

open QueueTables

namespace Storage

variable {storage after : Storage}

/-- The file is one that was begun in the log of the node. -/
structure Began (storage : Storage) (node : String) (file : FileRef) : Prop where
  named : file = Log.logFile node file.seq
  begun : file.seq < storage.next

/-- The file was begun, and it is not the one being written. -/
def Closed (storage : Storage) (file : FileRef) : Prop :=
  file.seq < storage.next ∧
    ∀ active committed, storage.active = some (active, committed) → active.seq ≠ file.seq

theorem Closed.writes {file : FileRef} (h : storage.Closed file) (hwrites : Writes storage after) :
    after.Closed file := by
  obtain ⟨hbegun, hother⟩ := h
  cases hwrites with
  | roll node silent hnext =>
    refine ⟨UInt64.lt_trans hbegun (storage.next_lt_succ hnext), fun active committed hactive ↦ ?_⟩
    cases hactive
    exact (UInt64.ne_of_lt hbegun).symm
  | commit length =>
    unfold commit
    split
    case h_1 => exact ⟨hbegun, hother⟩
    case h_2 writing committed hactive =>
      refine ⟨hbegun, fun active length hnow ↦ ?_⟩
      cases hnow
      exact hother _ _ hactive

end Storage

namespace Worker

open Log

/-! ## Where files end -/

/-- Files are listed behind those that were. -/
theorem backed_of_append {tables after : QueueTables} {key target : QueueKey} {first : UInt64}
    (h : tables.Backed key first) {added : List FileRef}
    (hlisted : after.filesOf target = tables.filesOf key ++ added) : after.Backed target first where
  head := by
    have hhead := h.head
    unfold headSeq? at hhead ⊢
    obtain ⟨file, hfile, hseq⟩ := Option.map_eq_some_iff.mp hhead
    rw [hlisted, List.head?_append, hfile, Option.some_or, Option.map_some, hseq]
  more := by
    obtain ⟨other, hother, hne⟩ := h.more
    obtain ⟨file, hfile, hseq⟩ := lists_iff_mem_filesOf.mp hother
    exact ⟨other, lists_iff_mem_filesOf.mpr ⟨file, hlisted ▸ List.mem_append_left added hfile, hseq⟩, hne⟩

/-- Nothing more is found in the file behind the offset. -/
def Ended (directory : Directory) (file : FileRef) (offset : Nat) : Prop :=
  ∀ content, content? directory file = some content → Frame.decode (content.drop offset) = .incomplete

theorem Ended.of_stays {directory after : Directory} {file : FileRef} {offset : Nat}
    (h : Ended directory file offset) (hstays : Stays directory after file) : Ended after file offset := by
  intro content hcontent
  rw [show content? after file = content? directory file from hstays] at hcontent
  exact h content hcontent

namespace Turn

/-- The storage of the worker's node. -/
def log (turn : Turn) : Storage := turn.world.storage turn.station

/-- The file is one of the node's log that is not written to any more, and ends at the offset. -/
structure Shut (turn : Turn) (file : FileRef) (offset : Nat) : Prop where
  named : file = logFile turn.station file.seq
  closed : turn.log.Closed file
  ended : Ended turn.world.directory file offset

/-- The file may be taken off at the offset: it ends there, and another one is listed behind it. -/
structure Settled (turn : Turn) (file : FileRef) (offset : Nat) : Prop where
  shut : turn.Shut file offset
  backed : turn.tables.Backed turn.worker.key file.seq

/-- A worker in the phase takes no file off that may not be taken off. -/
def Tidies (turn : Turn) : Phase → Prop
  | .reading file _ hasNext => hasNext = true → turn.tables.Backed turn.worker.key file.seq
  | .dropping => False
  | .advancing passage => passage.finishable = true → turn.Settled passage.file passage.stop
  | .finishing file => ∀ offset, turn.scene.position? = some (file, offset) → turn.Settled file offset
  | phase => ∀ passage, phase.passage? = some passage → passage.finishable = true →
      turn.Settled passage.file passage.stop

section Tidies

variable {turn after : Turn} {phase : Phase} {passage : Passage} {file : FileRef} {offset : Nat}

theorem tidies_of_free (h : phase.Free) : turn.Tidies phase := by
  cases phase <;> first | exact h.elim | (rintro passage ⟨⟩)

theorem tidies_of_passage (h : phase.passage? = some passage)
    (hsettled : passage.finishable = true → turn.Settled passage.file passage.stop) : turn.Tidies phase := by
  cases phase <;> cases h <;> (rintro _ ⟨⟩; exact hsettled)

theorem Tidies.settled (h : turn.Tidies phase) (hpassage : phase.passage? = some passage)
    (hfinishable : passage.finishable = true) : turn.Settled passage.file passage.stop := by
  cases phase <;> cases hpassage <;> exact h passage rfl hfinishable

theorem tidies_next (hposition : turn.scene.position? = some (passage.file, passage.stop))
    (hsettled : passage.finishable = true → turn.Settled passage.file passage.stop) :
    turn.Tidies passage.next := by
  unfold Passage.next
  split
  case isTrue hfinishable =>
    intro offset hthere
    cases hposition.symm.trans hthere
    exact hsettled hfinishable
  case isFalse => split <;> exact tidies_of_free trivial

theorem tidies_afterShipping (hposition : turn.scene.position? = some (passage.file, passage.start))
    (hle : passage.start ≤ passage.stop)
    (hsettled : passage.finishable = true → turn.Settled passage.file passage.stop) :
    turn.Tidies passage.afterShipping := by
  unfold Passage.afterShipping
  split
  case isTrue => exact hsettled
  case isFalse hstuck =>
    -- Without progress the queue already stands behind the passage.
    rw [Passage.madeProgress, decide_eq_true_iff] at hstuck
    have hsame : passage.start = passage.stop := by omega
    exact tidies_next (hsame ▸ hposition) hsettled

/-- What happened is nothing to the files of the node's log that were closed. -/
structure Respects (turn after : Turn) : Prop where
  station : after.station = turn.station
  closed : ∀ file, turn.log.Closed file → after.log.Closed file
  stays : ∀ seq, turn.log.Closed (logFile turn.station seq) →
    Stays turn.world.directory after.world.directory (logFile turn.station seq)

theorem Respects.shut (h : turn.Respects after) (hshut : turn.Shut file offset) : after.Shut file offset := by
  obtain ⟨hnamed, hclosed, hended⟩ := hshut
  have hstays := h.stays file.seq (hnamed ▸ hclosed)
  rw [← hnamed] at hstays
  exact ⟨h.station ▸ hnamed, h.closed file hclosed, hended.of_stays hstays⟩

/-- If others are listed behind the same files, and the worker has to take a file off, at the same offset. -/
theorem Respects.tidies (h : turn.Respects after)
    (hbacked : ∀ first, turn.tables.Backed turn.worker.key first → after.tables.Backed after.worker.key first)
    (hposition : ∀ file offset, phase = .finishing file → after.scene.position? = some (file, offset) →
      turn.scene.position? = some (file, offset))
    (htidies : turn.Tidies phase) : after.Tidies phase := by
  have hsettled {file : FileRef} {offset : Nat} (hsettled : turn.Settled file offset) :
      after.Settled file offset := ⟨h.shut hsettled.shut, hbacked _ hsettled.backed⟩
  cases phase with
  | reading file offset hasNext => exact fun hnext ↦ hbacked _ (htidies hnext)
  | dropping => exact htidies
  | advancing passage => exact fun hfinishable ↦ hsettled (htidies hfinishable)
  | finishing file => exact fun offset hnow ↦ hsettled (htidies offset (hposition file offset rfl hnow))
  | _ => exact fun passage hpassage hfinishable ↦ hsettled (htidies passage hpassage hfinishable)

/-- A file of a node's own queue that is read without a limit is not being written. -/
theorem closed_of_unlimited (hown : turn.worker.key.isRecovered = false)
    (hunlimited : (turn.activeLength? file).isNone = true) (hbegun : file.seq < turn.log.next) :
    turn.log.Closed file := by
  refine ⟨hbegun, fun active committed hactive hsame ↦ ?_⟩
  have hlog : turn.world.activeLog turn.facilities.node = some (active, committed) := hactive
  unfold activeLength? at hunlimited
  rw [if_neg (by rw [hown]; exact Bool.false_ne_true), hlog] at hunlimited
  dsimp only at hunlimited
  rw [if_pos hsame] at hunlimited
  cases hunlimited

end Tidies

section Steps

variable (turn : Turn)

theorem log_step : (step turn).log = turn.log := by
  unfold log World.storage
  rw [station_step]
  exact congrArg (fun storages ↦ (storages.lookup turn.station).getD (.create 1)) (storages_step turn)

theorem began_step {file : FileRef} (h : turn.log.Began turn.station file) :
    (step turn).log.Began (step turn).station file := by
  rw [log_step, station_step]
  exact h

/-- A step of a worker writes to no file. -/
theorem respects_step : turn.Respects (step turn) := by
  refine ⟨turn.station_step, fun _ hclosed ↦ turn.log_step ▸ hclosed, fun _ _ ↦ ?_⟩
  unfold Stays
  rw [directory_step]

end Steps

end Turn

/-! ## Relays -/

namespace Relay

variable {queue : Queue} {schema : Schema} {original : Directory} {relay : Relay}

/-- The passage that the peer acknowledges in a step is among those acknowledged from then on. -/
theorem acknowledged_work (relay : Relay) :
    relay.work.acknowledged = relay.acknowledged ++ relay.turn.delivers?.toList := by
  have hhold : relay.hold.turn.delivers? = relay.turn.delivers? := rfl
  show relay.hold.hear.acknowledged = _
  unfold hear
  rw [hhold]
  cases relay.turn.delivers? with
  | none => exact (List.append_nil _).symm
  | some passage => rfl

theorem Orderly.spares_self (h : Orderly queue schema original relay) :
    Spares relay.finished relay.scene relay.scene where
  schema := rfl
  wellFormed := h.wellFormed
  offset := rfl
  listed := ⟨[], (List.append_nil _).symm⟩
  later done hdone file hfile := by
    have hacross := (List.pairwise_append.mp h.ascending).2.2
    exact hacross done.file (mem_done.mpr ⟨done.offset, hdone⟩) file hfile
  written _ _ := Stays.continues rfl

/-- The relay of a node's own queue has taken files off where they end, and never the last one. -/
structure Tidy (relay : Relay) : Prop where
  own : relay.turn.worker.key.isRecovered = false
  begun : ∀ file ∈ relay.scene.listed, relay.turn.log.Began relay.turn.station file
  shut : ∀ place ∈ relay.finished, relay.turn.Shut place.file place.offset
  left : relay.finished ≠ [] → relay.scene.listed ≠ []
  inHand : relay.turn.Tidies relay.turn.worker.phase

namespace Tidy

section Steps

variable (h : relay.Tidy)

include h

/-- The worker learns something, or moves the position. -/
theorem work_of_listed (hkey : (step relay.turn).worker.key = relay.turn.worker.key)
    (hlisted : (step relay.turn).scene.listed = relay.scene.listed)
    (hfinishes : relay.turn.finishes? = none)
    (hinHand : (step relay.turn).Tidies (step relay.turn).worker.phase) : relay.work.Tidy := by
  rw [work_eq hfinishes]
  constructor
  case own => exact hkey ▸ h.own
  case begun =>
    intro file hfile
    exact relay.turn.began_step (h.begun file (hlisted ▸ hfile))
  case shut =>
    intro place hplace
    exact relay.turn.respects_step.shut (h.shut place (finished_hear relay ▸ hplace))
  case left =>
    intro hsome
    show (step relay.turn).scene.listed ≠ []
    rw [hlisted]
    exact h.left (finished_hear relay ▸ hsome)
  case inHand => exact hinHand

theorem work_of_scene (hscene : (step relay.turn).scene = relay.scene)
    (hfinishes : relay.turn.finishes? = none)
    (hinHand : relay.turn.Tidies (step relay.turn).worker.phase) : relay.work.Tidy := by
  have hscene' : (step relay.turn).scene = relay.turn.scene := hscene
  have htables : (step relay.turn).tables = relay.turn.tables := Turn.tables_of_scene_eq _ hscene'
  have hkey : (step relay.turn).worker.key = relay.turn.worker.key := congrArg Scene.key hscene'
  refine h.work_of_listed hkey (congrArg Scene.listed hscene) hfinishes ?_
  refine relay.turn.respects_step.tidies (fun first hbacked ↦ ?_) (fun file offset _ hnow ↦ hscene' ▸ hnow)
    hinHand
  rw [htables, hkey]
  exact hbacked

theorem work_of_idles (hidles : relay.turn.Idles (step relay.turn))
    (hfinishes : relay.turn.finishes? = none) : relay.work.Tidy :=
  h.work_of_scene hidles.1 hfinishes (Turn.tidies_of_free hidles.2)

theorem work_of_free (hfree : relay.turn.worker.phase.Free) (hloading : relay.turn.worker.phase ≠ .loading) :
    relay.work.Tidy :=
  h.work_of_idles (Turn.step_of_free hfree hloading) (relay.turn.quiet (Phase.quiet_of_free hfree)).2

theorem work_of_loading (hwf : relay.turn.tables.WellFormed) (hphase : relay.turn.worker.phase = .loading) :
    relay.work.Tidy := by
  have hstep : step relay.turn = relay.turn.load := Turn.step_loading hphase
  have hfinishes := (relay.turn.quiet (by rw [hphase]; trivial)).2
  rcases relay.turn.load_cases with hidles | ⟨loaded, hloaded, hscene, hway⟩
  · exact h.work_of_idles (hstep ▸ hidles) hfinishes
  · refine h.work_of_scene (hstep ▸ hscene) hfinishes ?_
    rw [hstep]
    rcases hway with ⟨-, hrecovered, -⟩ | ⟨file, hhead, hread⟩
    · rw [h.own] at hrecovered
      cases hrecovered
    · rw [hread]
      exact backed_of_hasNext hwf hloaded hhead

variable (horderly : Orderly queue schema original relay)

include horderly

theorem work_of_passage {passage : Passage} (hp : relay.turn.worker.phase.passage? = some passage) :
    relay.work.Tidy := by
  have hfits := horderly.inHand.fits hp
  have hsettled := h.inHand.settled hp
  have hfinishes := (relay.turn.quiet (Phase.quiet_of_passage hp)).2
  rcases Turn.step_of_passage hp with ⟨hscene, hkept | hfree⟩ | ⟨-, hscene, hafter⟩
  · exact h.work_of_scene hscene hfinishes (Turn.tidies_of_passage hkept hsettled)
  · exact h.work_of_scene hscene hfinishes (Turn.tidies_of_free hfree)
  · refine h.work_of_scene hscene hfinishes ?_
    rw [hafter]
    obtain ⟨_, read, -, hread, -⟩ := hfits.read
    exact Turn.tidies_afterShipping hfits.position hread.le hsettled

/-- What is read to the end of a file that is not being written ends there. -/
theorem work_of_reading {file : FileRef} {offset : Nat} {hasNext : Bool}
    (hphase : relay.turn.worker.phase = .reading file offset hasNext)
    (hthere : (content? relay.scene.directory file).isSome = true) : relay.work.Tidy := by
  have hstep : step relay.turn = relay.turn.read file offset hasNext := Turn.step_reading hphase
  have hfinishes := (relay.turn.quiet (by rw [hphase]; trivial)).2
  have hposition := horderly.inHand
  have hnext := h.inHand
  rw [hphase] at hposition hnext
  obtain ⟨content, hcontent⟩ := Option.isSome_iff_exists.mp hthere
  rcases Turn.read_cases offset hasNext hcontent with hidles | ⟨batch, htaken, hread⟩
  · exact h.work_of_idles (hstep ▸ hidles) hfinishes
  · obtain ⟨hstart, read, hchain, -, hexhausted⟩ := Batch.take_chain rfl htaken
    obtain ⟨hscene, passage, -, rfl, hpstart, hpstop, hfinishable, hway⟩ :=
      relay.turn.takeBatch_cases file (relay.turn.activeLength? file).isNone hasNext batch
    rw [← hread, ← hstep] at hscene hway
    have hsettled (hdone : passage.finishable = true) :
        relay.turn.Settled passage.file passage.stop := by
      obtain ⟨hend, hunlimited, hbehind⟩ := hfinishable hdone
      have hbegun := h.begun _ (List.mem_of_head? (Scene.position?_eq_some_iff.mp hposition).1)
      refine ⟨⟨hbegun.named, Turn.closed_of_unlimited h.own hunlimited hbegun.begun, fun other hother ↦ ?_⟩, ?_⟩
      · cases hcontent.symm.trans hother
        rw [hpstop]
        exact hexhausted (Option.isNone_iff_eq_none.mp hunlimited) hend
      · refine hnext (hbehind.resolve_right fun hrecovered ↦ ?_)
        rw [h.own] at hrecovered
        cases hrecovered
    refine h.work_of_scene hscene hfinishes ?_
    rcases hway with hshipping | ⟨-, hafter⟩
    · rw [hshipping]
      exact Turn.tidies_of_passage rfl hsettled
    · rw [hafter]
      refine Turn.tidies_afterShipping ?_ (by rw [hpstart, hpstop]; exact hchain.le) hsettled
      rw [hpstart, hstart]
      exact hposition

theorem work_of_advancing {passage : Passage} (hphase : relay.turn.worker.phase = .advancing passage) :
    relay.work.Tidy := by
  have hstep : step relay.turn = relay.turn.advance passage := Turn.step_advancing hphase
  have hfinishes : relay.turn.finishes? = none := by rw [Turn.finishes?, hphase]
  have hinHand := horderly.inHand
  have hsettled := h.inHand
  rw [hphase] at hinHand hsettled
  rcases Turn.advance_cases hphase with ⟨queues, hadvance, -, hscene, hafter⟩ | ⟨-, hidles, -⟩
  · rw [← hstep] at hscene hafter
    obtain ⟨hlisted, hposition⟩ := Scene.withQueues_advance hinHand.1.position hadvance
    have htables : (step relay.turn).tables = queues := congrArg (·.database.queues) hscene
    have hkey : (step relay.turn).worker.key = relay.turn.worker.key := congrArg Scene.key hscene
    refine h.work_of_listed hkey ((congrArg Scene.listed hscene).trans hlisted) hfinishes ?_
    rw [hafter]
    refine Turn.tidies_next ((congrArg Scene.position? hscene).trans hposition) fun hfinishable ↦ ?_
    refine ⟨relay.turn.respects_step.shut (hsettled hfinishable).shut, ?_⟩
    rw [htables, hkey]
    exact (hsettled hfinishable).backed.advance hadvance
  · exact h.work_of_idles (hstep ▸ hidles) hfinishes

theorem work_of_finishing {file : FileRef} (hphase : relay.turn.worker.phase = .finishing file) :
    relay.work.Tidy := by
  have hstep : step relay.turn = relay.turn.finish file := Turn.step_finishing hphase
  have hinHand := horderly.inHand
  have hsettled := h.inHand
  rw [hphase] at hinHand hsettled
  obtain ⟨offset, hposition, -⟩ := hinHand
  rcases Turn.finish_cases hphase with ⟨queues, hfinish, hfinishes, hscene, hafter⟩ | ⟨hfinishes, hidles, -⟩
  · rw [← hstep] at hscene hafter
    obtain ⟨hlisted, -⟩ := Scene.withQueues_finish horderly.wellFormed hposition hfinish
    have hrespects := relay.turn.respects_step
    have hleft : (step relay.turn).scene.listed = (relay.scene.withQueues queues).listed :=
      congrArg Scene.listed hscene
    rw [← hleft] at hlisted
    rw [work_eq_of_finishes hfinishes hposition]
    constructor
    case own =>
      have hkey : (step relay.turn).worker.key = relay.turn.worker.key := congrArg Scene.key hscene
      exact hkey ▸ h.own
    case begun =>
      intro other hother
      exact relay.turn.began_step (h.begun other (hlisted ▸ List.mem_cons_of_mem file hother))
    case shut =>
      intro place hplace
      rcases List.mem_append.mp hplace with hold | hnew
      · exact hrespects.shut (h.shut place (finished_hear relay ▸ hold))
      · cases List.mem_singleton.mp hnew
        exact hrespects.shut (hsettled offset hposition).shut
    case left =>
      intro _ hnone
      obtain ⟨other, hother, hne⟩ := (hsettled offset hposition).backed.more
      obtain ⟨listed, hmem, rfl⟩ := lists_iff_mem_filesOf.mp hother
      have hmem : listed ∈ relay.scene.listed := hmem
      have hnone : (step relay.turn).scene.listed = [] := hnone
      rw [hlisted, hnone] at hmem
      exact hne (congrArg FileRef.seq (List.mem_singleton.mp hmem))
    case inHand =>
      show (step relay.turn).Tidies (step relay.turn).worker.phase
      rw [hafter]
      exact Turn.tidies_of_free trivial
  · exact h.work_of_idles (hstep ▸ hidles) hfinishes

/-- Every step of a worker keeps the relay tidy, as long as the listed files are there. -/
theorem work (hthere : ∀ file ∈ relay.scene.listed, (content? relay.scene.directory file).isSome = true) :
    relay.work.Tidy := by
  cases hphase : relay.turn.worker.phase with
  | loading => exact h.work_of_loading horderly.wellFormed hphase
  | reading file offset hasNext =>
    have hposition := horderly.inHand
    rw [hphase] at hposition
    exact h.work_of_reading horderly hphase
      (hthere file (List.mem_of_head? (Scene.position?_eq_some_iff.mp hposition).1))
  | dropping =>
    have hdropping := h.inHand
    rw [hphase] at hdropping
    exact hdropping.elim
  | advancing passage => exact h.work_of_advancing horderly hphase
  | finishing file => exact h.work_of_finishing horderly hphase
  | ready | gated | idle | pausing | stalled | stopped =>
    exact h.work_of_free (by rw [hphase]; trivial) (by rw [hphase]; nofun)
  | shipping passage | awaitingTokens passage _ | awaitingPlace passage | calling passage
  | inFlight passage _ _ | backingOff passage _ =>
    exact h.work_of_passage horderly (by rw [hphase]; rfl)

end Steps

/-- A step of the worker lists no file, and none gets lost. -/
theorem files_work (h : relay.Tidy) (horderly : Orderly queue schema original relay) :
    relay.work.files = relay.files := by
  have hsame (hlisted : (step relay.turn).scene.listed = relay.scene.listed)
      (hfinishes : relay.turn.finishes? = none) : relay.work.files = relay.files := by
    rw [work_eq hfinishes, files, files, done, done]
    show (relay.hold.hear.finished.map _) ++ (step relay.turn).scene.listed = _
    rw [hlisted, finished_hear]
  rcases relay.turn.scene_step_cases with ⟨hscene, hfinishes⟩ |
    ⟨passage, queues, hphase, hadvance, hscene, hfinishes⟩ |
    ⟨file, queues, hphase, hfinish, hscene, hfinishes⟩ | ⟨hphase, -⟩
  · exact hsame (congrArg Scene.listed hscene) hfinishes
  · have hinHand := horderly.inHand
    rw [hphase] at hinHand
    exact hsame ((congrArg Scene.listed hscene).trans
      (Scene.withQueues_advance hinHand.1.position hadvance).1) hfinishes
  · have hinHand := horderly.inHand
    rw [hphase] at hinHand
    obtain ⟨offset, hposition, -⟩ := hinHand
    have hlisted : relay.scene.listed = file :: (step relay.turn).scene.listed := by
      rw [hscene]
      exact (Scene.withQueues_finish horderly.wellFormed hposition hfinish).1
    rw [work_eq_of_finishes hfinishes hposition]
    refine Orderly.files_of_finish ?_ hlisted
    rw [done, List.map_append, finished_hear]
    rfl
  · have hdropping := h.inHand
    rw [hphase] at hdropping
    exact hdropping.elim

/-- The files of the relay are files of the node's log. -/
theorem began_of_mem_files (h : relay.Tidy) {file : FileRef} (hfile : file ∈ relay.files) :
    relay.turn.log.Began relay.turn.station file := by
  rcases List.mem_append.mp hfile with hdone | hlisted
  · obtain ⟨offset, hplace⟩ := mem_done.mp hdone
    have hshut := h.shut _ hplace
    exact ⟨hshut.named, hshut.closed.1⟩
  · exact h.begun file hlisted

/-- Others list files that were begun, and write to no file that was closed. -/
theorem goOn {turn : Turn} (h : relay.Tidy) (horderly : Orderly queue schema original relay)
    (hspares : Spares relay.finished relay.scene turn.scene) (hrespects : relay.turn.Respects turn)
    (hkey : turn.worker.key = relay.turn.worker.key)
    (hbegun : ∀ file ∈ turn.scene.listed, turn.log.Began turn.station file)
    (hphase : turn.worker.phase = relay.turn.worker.phase ∨ turn.worker.phase.Free) :
    (relay.setTurn turn).Tidy where
  own := hkey ▸ h.own
  begun := hbegun
  shut place hplace := hrespects.shut (h.shut place hplace)
  left hsome hnone := by
    obtain ⟨added, hlisted⟩ := hspares.listed
    have hnone : turn.scene.listed = [] := hnone
    rw [hlisted, List.append_eq_nil_iff] at hnone
    exact h.left hsome hnone.1
  inHand := by
    rcases hphase with hsame | hfree
    · obtain ⟨added, hlisted⟩ := hspares.listed
      show turn.Tidies turn.worker.phase
      rw [hsame]
      refine hrespects.tidies (fun first hbacked ↦ backed_of_append hbacked hlisted)
        (fun file offset hfinishing hnow ↦ ?_) h.inHand
      have hinHand := horderly.inHand
      rw [hfinishing] at hinHand
      obtain ⟨before, hbefore, -⟩ := hinHand
      cases (hspares.position hbefore).symm.trans hnow
      exact hbefore
    · exact Turn.tidies_of_free hfree

/-- A relay whose worker has nothing in hand, and that has taken no file off, is tidy. -/
theorem opening {turn : Turn} (hown : turn.worker.key.isRecovered = false)
    (hbegun : ∀ file ∈ turn.scene.listed, turn.log.Began turn.station file) (hfree : turn.worker.phase.Free) :
    (Relay.opening turn).Tidy :=
  ⟨hown, hbegun, fun _ hnone ↦ absurd hnone List.not_mem_nil, fun hsome ↦ absurd rfl hsome,
    Turn.tidies_of_free hfree⟩

/-- No record is missed. -/
theorem not_missed (h : relay.Tidy) (horderly : Orderly queue schema original relay) {place : LogPlace}
    {entry : Entry} (hrecorded : Recorded queue relay.scene.directory place entry) : ¬relay.Missed place := by
  rintro ⟨stop, hfinished, hle⟩
  obtain ⟨content, hcontent, before, rest, hbefore, hrecord⟩ := hrecorded
  obtain ⟨read, hread⟩ := horderly.reached _ _ content (.inl hfinished) hcontent
  have hend := (h.shut _ hfinished).ended content hcontent
  have hlast := hread.le_of_incomplete hend (hbefore.append hrecord)
  -- So the record would begin where the file ends.
  have hsame : place.offset = stop := by have := hrecord.le; omega
  rw [← hsame] at hend
  cases hrecord with
  | cons hframe => cases hend.symm.trans hframe

end Tidy

end Relay

end Worker

end LogShipping
