import LogShipping.Proofs.Queue.Standing
import LogShipping.Proofs.Worker.Transitions

/-!
# What a worker holds of the log behind a mark

The worker of a node's own queue ships what it reads from where the queue stands. If the queue stands at a
mark or behind it, so does all that the worker has read, and what it ships of it; and if the last of the
listed files is not missing, the worker takes a file off only while another is listed behind it, so the queue
stays behind the mark. A worker works on its own queue only.
-/

namespace LogShipping.Worker

open Log QueueTables

/-! ## Which tables a step leaves -/

namespace Turn

section Frame

variable (turn : Turn) (passage : Passage)

def tables (turn : Turn) : QueueTables := turn.world.database.queues

theorem tables_of_scene_eq {after : Turn} (h : after.scene = turn.scene) : after.tables = turn.tables :=
  congrArg (·.database.queues) h

theorem scene_read (file : FileRef) (offset : Nat) (hasNext : Bool) :
    (turn.read file offset hasNext).scene = turn.scene := by
  unfold read
  dsimp only
  split
  case h_1 => split <;> rfl
  case h_2 => exact scene_pause turn
  case h_3 =>
    split
    case h_1 => exact (takeBatch_cases turn _ _ _ _).1
    case h_2 => rfl
    case h_3 => exact scene_pause turn

/-- A step moves the position, takes the first file off, drops the queue, or leaves the scene as it is. -/
theorem scene_step_cases :
    ((step turn).scene = turn.scene ∧ turn.finishes? = none) ∨
    (∃ passage queues, turn.worker.phase = .advancing passage ∧
      turn.tables.advance turn.worker.key passage.start passage.target = .ok queues ∧
      (step turn).scene = turn.scene.withQueues queues ∧ turn.finishes? = none) ∨
    (∃ file queues, turn.worker.phase = .finishing file ∧
      turn.tables.finish turn.worker.key file.seq = .ok queues ∧
      (step turn).scene = turn.scene.withQueues queues ∧ turn.finishes? = some file) ∨
    (turn.worker.phase = .dropping ∧
      (step turn).scene = turn.scene.withQueues (turn.tables.remove turn.worker.key)) := by
  cases hphase : turn.worker.phase with
  | advancing passage =>
    have hfinishes : turn.finishes? = none := by rw [finishes?, hphase]
    rw [step_advancing hphase]
    rcases advance_cases hphase with ⟨queues, hok, -, hscene, -⟩ | ⟨-, hidles, -⟩
    · exact .inr (.inl ⟨passage, queues, rfl, hok, hscene, hfinishes⟩)
    · exact .inl ⟨hidles.1, hfinishes⟩
  | finishing file =>
    rw [step_finishing hphase]
    rcases finish_cases hphase with ⟨queues, hok, hfinishes, hscene, -⟩ | ⟨hfinishes, hidles, -⟩
    · exact .inr (.inr (.inl ⟨file, queues, rfl, hok, hscene, hfinishes⟩))
    · exact .inl ⟨hidles.1, hfinishes⟩
  | dropping =>
    rw [step_dropping hphase]
    rcases drop_cases turn with ⟨hscene, -⟩ | hidles
    · exact .inr (.inr (.inr ⟨rfl, hscene⟩))
    · exact .inl ⟨hidles.1, by rw [finishes?, hphase]⟩
  | reading file offset hasNext =>
    exact .inl ⟨step_reading hphase ▸ scene_read turn file offset hasNext, by rw [finishes?, hphase]⟩
  | ready | gated | loading | idle | pausing | stalled | stopped =>
    exact .inl ⟨scene_step_of_free (by rw [hphase]; trivial), by rw [finishes?, hphase]⟩
  | shipping passage | awaitingTokens passage _ | awaitingPlace passage | calling passage
  | inFlight passage _ _ | backingOff passage _ =>
    have hpassage : turn.worker.phase.passage? = some passage := by rw [hphase]; rfl
    have hfinishes : turn.finishes? = none := by rw [finishes?, hphase]
    rcases step_of_passage hpassage with hcarries | ⟨-, hshipped⟩
    · exact .inl ⟨hcarries.1, hfinishes⟩
    · exact .inl ⟨hshipped.1, hfinishes⟩

theorem scene_step : ∃ queues, (step turn).scene = turn.scene.withQueues queues := by
  rcases turn.scene_step_cases with ⟨hsame, -⟩ | ⟨_, queues, -, -, hscene, -⟩ | ⟨_, queues, -, -, hscene, -⟩ |
    ⟨-, hscene⟩
  · exact ⟨turn.tables, hsame⟩
  · exact ⟨queues, hscene⟩
  · exact ⟨queues, hscene⟩
  · exact ⟨_, hscene⟩

theorem directory_step : (step turn).world.directory = turn.world.directory := by
  obtain ⟨queues, hscene⟩ := turn.scene_step
  exact congrArg Scene.directory hscene

theorem schema_step : (step turn).world.schema = turn.world.schema := by
  obtain ⟨queues, hscene⟩ := turn.scene_step
  exact congrArg Scene.schema hscene

theorem reachable_step : (step turn).world.database.reachable = turn.world.database.reachable := by
  obtain ⟨queues, hscene⟩ := turn.scene_step
  exact congrArg (·.database.reachable) hscene

/-- A step carries out one operation on the worker's own queue, or none at all. -/
theorem tables_step : (step turn).tables = turn.tables ∨
    ∃ operation, operation.subject? = some turn.worker.key ∧
      (operation = .drop turn.worker.key → turn.worker.phase = .dropping) ∧
      turn.tables.perform operation = .ok (step turn).tables := by
  have htables {queues : QueueTables} (hscene : (step turn).scene = turn.scene.withQueues queues) :
      (step turn).tables = queues := congrArg (·.database.queues) hscene
  rcases turn.scene_step_cases with ⟨hscene, -⟩ | ⟨passage, queues, -, hok, hscene, -⟩ |
    ⟨file, queues, -, hok, hscene, -⟩ | ⟨hphase, hscene⟩
  · exact .inl (tables_of_scene_eq turn hscene)
  · exact .inr ⟨.advance turn.worker.key passage.start passage.target, rfl, nofun, (htables hscene).symm ▸ hok⟩
  · exact .inr ⟨.finish turn.worker.key file.seq, rfl, nofun, (htables hscene).symm ▸ hok⟩
  · exact .inr ⟨.drop turn.worker.key, rfl, fun _ ↦ hphase, congrArg Except.ok (htables hscene).symm⟩

end Frame

/-- A worker whose queue is not there has nothing in hand, and gets nothing. -/
theorem idles_of_absent {turn : Turn} (hfree : turn.worker.phase.Free)
    (habsent : turn.tables.offset? turn.worker.key = none) : turn.Idles (step turn) := by
  by_cases hloading : turn.worker.phase = .loading
  · rw [step_loading hloading]
    rcases load_cases turn with hidles | ⟨queue, hqueue, -⟩
    · exact hidles
    · obtain ⟨offset, hoffset, -⟩ := get?_eq_some_iff.mp hqueue
      cases habsent.symm.trans hoffset
  · exact step_of_free hfree hloading

end Turn

/-! ## What is held -/

/-- The passage begins at the mark or behind it, and its shipment holds what the filter leaves of the records
that one of the worlds had there. -/
structure ReadBehind (mark : LogPosition) (seen : World → Prop) (passage : Passage) : Prop where
  start : LogPosition.Behind ⟨passage.file.seq, passage.start⟩ mark
  entries : ∃ world content read, seen world ∧ content? world.directory passage.file = some content ∧
    Chain content passage.start passage.stop read ∧
    passage.shipment.entries = read.filterMap (Entry.filter world.schema)

/-- The worker has the passage in hand, and takes its file off only if another is listed behind it. -/
structure Carried (mark : LogPosition) (seen : World → Prop) (tables : QueueTables) (key : QueueKey)
    (passage : Passage) : Prop where
  read : ReadBehind mark seen passage
  backed : passage.finishable = true → tables.Backed key passage.file.seq

/-- What is true of the phase of a worker whose queue stands behind the mark. -/
def Tracks (mark : LogPosition) (seen : World → Prop) (tables : QueueTables) (key : QueueKey) : Phase → Prop
  | .reading file offset hasNext =>
    LogPosition.Behind ⟨file.seq, offset⟩ mark ∧ (hasNext = true → tables.Backed key file.seq)
  | .dropping => False
  | .advancing passage => Carried mark seen tables key passage
  | .finishing file => tables.Backed key file.seq
  | phase => ∀ passage, phase.passage? = some passage → Carried mark seen tables key passage

section Tracks

variable {mark : LogPosition} {seen : World → Prop} {tables : QueueTables} {key : QueueKey}
  {passage : Passage} {phase : Phase}

theorem tracks_of_free (h : phase.Free) : Tracks mark seen tables key phase := by
  cases phase <;> first | exact h.elim | exact fun _ hnone ↦ by cases hnone

theorem tracks_of_passage (hpassage : phase.passage? = some passage)
    (h : Carried mark seen tables key passage) : Tracks mark seen tables key phase := by
  have hheld (other : Passage) (hother : phase.passage? = some other) : Carried mark seen tables key other :=
    Option.some.inj (hpassage.symm.trans hother) ▸ h
  cases phase <;> first | exact hheld | cases hpassage

theorem Tracks.carried (h : Tracks mark seen tables key phase) (hpassage : phase.passage? = some passage) :
    Carried mark seen tables key passage := by
  cases phase <;> first | exact h passage hpassage | cases hpassage

theorem tracks_next (h : Carried mark seen tables key passage) :
    Tracks mark seen tables key passage.next := by
  unfold Passage.next
  split
  case isTrue hfinishable => exact h.backed hfinishable
  case isFalse =>
    split
    case isTrue => exact tracks_of_free trivial
    case isFalse => exact tracks_of_free trivial

theorem tracks_afterShipping (h : Carried mark seen tables key passage) :
    Tracks mark seen tables key passage.afterShipping := by
  unfold Passage.afterShipping
  split
  case isTrue => exact h
  case isFalse => exact tracks_next h

/-- More worlds may have been seen, and the tables may have changed as long as the same files have others
behind them. -/
theorem Tracks.mono (h : Tracks mark seen tables key phase) {later : World → Prop} {after : QueueTables}
    (hseen : ∀ world, seen world → later world)
    (hbacked : ∀ first, tables.Backed key first → after.Backed key first) :
    Tracks mark later after key phase := by
  have hcarried {passage : Passage} (hcarried : Carried mark seen tables key passage) :
      Carried mark later after key passage := by
    obtain ⟨world, content, read, hworld, hread⟩ := hcarried.read.entries
    exact ⟨⟨hcarried.read.start, world, content, read, hseen world hworld, hread⟩,
      fun hfinishable ↦ hbacked _ (hcarried.backed hfinishable)⟩
  cases hphase : phase.passage? with
  | some passage => exact tracks_of_passage hphase (hcarried (h.carried hphase))
  | none =>
    cases phase with
    | reading file offset hasNext => exact ⟨h.1, fun hnext ↦ hbacked _ (h.2 hnext)⟩
    | dropping => exact h
    | advancing passage => exact hcarried h
    | finishing file => exact hbacked _ h
    | _ => first | exact tracks_of_free trivial | cases hphase

end Tracks

/-! ## A step of the worker -/

namespace Turn

variable {turn : Turn} {mark : LogPosition} {seen : World → Prop}

/-- The worker of a node's own queue, which stands behind the mark. -/
structure Keeps (mark : LogPosition) (seen : World → Prop) (turn : Turn) : Prop where
  wellFormed : turn.tables.WellFormed
  stands : Stands mark turn.worker.key turn.tables
  tracks : Tracks mark seen turn.tables turn.worker.key turn.worker.phase

/-- The scene stays as it is. -/
theorem Keeps.of_scene_eq (h : turn.Keeps mark seen) {after : Turn} (hscene : after.scene = turn.scene)
    (htracks : Tracks mark seen turn.tables turn.worker.key after.worker.phase) : after.Keeps mark seen := by
  have htables : after.tables = turn.tables := tables_of_scene_eq turn hscene
  have hkey : after.worker.key = turn.worker.key := congrArg Scene.key hscene
  constructor
  · exact htables ▸ h.wellFormed
  · rw [htables, hkey]
    exact h.stands
  · rw [htables, hkey]
    exact htracks

theorem Keeps.load (h : turn.Keeps mark seen) (hown : turn.worker.key.isRecovered = false) :
    turn.load.Keeps mark seen := by
  rcases load_cases turn with ⟨hscene, hfree⟩ | ⟨queue, hqueue, hscene, hway⟩
  · exact h.of_scene_eq hscene (tracks_of_free hfree)
  · rcases hway with ⟨-, hrecovered, -⟩ | ⟨file, hhead, hphase⟩
    · rw [hown] at hrecovered
      cases hrecovered
    · refine h.of_scene_eq hscene ?_
      rw [hphase]
      refine ⟨?_, backed_of_hasNext h.wellFormed hqueue hhead⟩
      obtain ⟨offset, hoffset, rfl⟩ := get?_eq_some_iff.mp hqueue
      obtain ⟨first, hfirst, hbehind⟩ := h.stands.position offset hoffset
      have hseq : turn.tables.headSeq? turn.worker.key = some file.seq := by
        change (turn.tables.filesOf turn.worker.key).head? = some file at hhead
        rw [headSeq?, hhead]
        rfl
      obtain rfl := Option.some.inj (hfirst.symm.trans hseq)
      exact hbehind

theorem Keeps.read (h : turn.Keeps mark seen) (hown : turn.worker.key.isRecovered = false)
    (hseen : seen turn.world) {file : FileRef} {offset : Nat} {hasNext : Bool}
    (hphase : turn.worker.phase = .reading file offset hasNext)
    (hfound : hasNext = false → (content? turn.world.directory file).isSome = true) :
    (turn.read file offset hasNext).Keeps mark seen := by
  have htracks := h.tracks
  rw [hphase] at htracks
  obtain ⟨hbehind, hbacked⟩ := htracks
  cases hcontent : content? turn.world.directory file with
  | none =>
    rw [hcontent] at hfound
    have hnext : hasNext = true := Bool.not_eq_false _ ▸ fun hlast ↦ Bool.false_ne_true (hfound hlast)
    rcases read_cases_of_missing offset hasNext hcontent with ⟨hscene, hfree⟩ | ⟨hscene, hgone⟩
    · exact h.of_scene_eq hscene (tracks_of_free hfree)
    · refine h.of_scene_eq hscene ?_
      rw [hgone]
      exact hbacked hnext
  | some content =>
    rcases read_cases offset hasNext hcontent with ⟨hscene, hfree⟩ | ⟨batch, htaken, hread⟩
    · exact h.of_scene_eq hscene (tracks_of_free hfree)
    · obtain ⟨hstart, read, hchain, hentries, -⟩ := Batch.take_chain rfl htaken
      obtain ⟨hscene, passage, hshipment, hfile, hpstart, hpstop, hfinishable, hway⟩ :=
        takeBatch_cases turn file (turn.activeLength? file).isNone hasNext batch
      have hpassage : passage.start = offset := hpstart.trans hstart
      have hcarried : Carried mark seen turn.tables turn.worker.key passage := by
        refine ⟨⟨?_, turn.world, content, read, hseen, hfile ▸ hcontent, ?_, hshipment.trans hentries⟩, ?_⟩
        · rw [hfile, hpassage]
          exact hbehind
        · rw [hpstart, hpstop]
          exact hchain
        · intro hdone
          obtain ⟨-, -, hnext | hrecovered⟩ := hfinishable hdone
          · rw [hfile]
            exact hbacked hnext
          · rw [hown] at hrecovered
            cases hrecovered
      rw [hread]
      refine h.of_scene_eq hscene ?_
      rcases hway with hshipping | ⟨-, hafter⟩
      · rw [hshipping]
        exact tracks_of_passage rfl hcarried
      · rw [hafter]
        exact tracks_afterShipping hcarried

theorem Keeps.advance (h : turn.Keeps mark seen) {passage : Passage}
    (hphase : turn.worker.phase = .advancing passage) : (turn.advance passage).Keeps mark seen := by
  have hcarried := h.tracks
  rw [hphase] at hcarried
  rcases advance_cases hphase with ⟨after, hok, -, hscene, hnext⟩ | ⟨-, ⟨hscene, hfree⟩, -⟩
  · have htables : (turn.advance passage).tables = after := congrArg (·.database.queues) hscene
    have hkey : (turn.advance passage).worker.key = turn.worker.key := congrArg Scene.key hscene
    have hbacked (first : UInt64) (hbacked : turn.tables.Backed turn.worker.key first) :
        after.Backed turn.worker.key first := hbacked.advance hok
    constructor
    · exact htables ▸ h.wellFormed.perform (.advance _ _ _) hok
    · rw [htables, hkey]
      exact h.stands.advance hok
    · rw [htables, hkey, hnext]
      exact tracks_next ⟨hcarried.read, fun hfinishable ↦ hbacked _ (hcarried.backed hfinishable)⟩
  · exact h.of_scene_eq hscene (tracks_of_free hfree)

theorem Keeps.finish (h : turn.Keeps mark seen) {file : FileRef}
    (hphase : turn.worker.phase = .finishing file) : (turn.finish file).Keeps mark seen := by
  have hbacked := h.tracks
  rw [hphase] at hbacked
  rcases finish_cases hphase with ⟨after, hok, -, hscene, hready⟩ | ⟨-, ⟨hscene, hfree⟩, -⟩
  · have htables : (turn.finish file).tables = after := congrArg (·.database.queues) hscene
    have hkey : (turn.finish file).worker.key = turn.worker.key := congrArg Scene.key hscene
    constructor
    · exact htables ▸ h.wellFormed.perform (.finish _ _) hok
    · rw [htables, hkey]
      exact h.stands.finish hbacked hok
    · rw [hready]
      exact tracks_of_free trivial
  · exact h.of_scene_eq hscene (tracks_of_free hfree)

/-- The worker does not find the last of the listed files missing. -/
def Finds (turn : Turn) : Prop :=
  ∀ file offset, turn.worker.phase = .reading file offset false →
    (content? turn.world.directory file).isSome = true

/-- Each step keeps it, as long as the last of the listed files is not missing. -/
theorem Keeps.step (h : turn.Keeps mark seen) (hown : turn.worker.key.isRecovered = false)
    (hseen : seen turn.world) (hfound : turn.Finds) : (step turn).Keeps mark seen := by
  cases hphase : turn.worker.phase with
  | loading => exact step_loading hphase ▸ h.load hown
  | reading file offset hasNext =>
    exact step_reading hphase ▸ h.read hown hseen hphase fun hlast ↦ hfound file offset (hlast ▸ hphase)
  | dropping =>
    have hdropping := h.tracks
    rw [hphase] at hdropping
    exact hdropping.elim
  | advancing passage => exact step_advancing hphase ▸ h.advance hphase
  | finishing file => exact step_finishing hphase ▸ h.finish hphase
  | ready | gated | idle | pausing | stalled | stopped =>
    obtain ⟨hscene, hfree⟩ : turn.Idles (Worker.step turn) :=
      step_of_free (by rw [hphase]; trivial) (by rw [hphase]; nofun)
    exact h.of_scene_eq hscene (tracks_of_free hfree)
  | shipping passage | awaitingTokens passage _ | awaitingPlace passage | calling passage
  | inFlight passage _ _ | backingOff passage _ =>
    have hpassage : turn.worker.phase.passage? = some passage := by rw [hphase]; rfl
    have hcarried := h.tracks.carried hpassage
    rcases step_of_passage hpassage with ⟨hscene, hkept | hfree⟩ | ⟨-, hscene, hshipped⟩
    · exact h.of_scene_eq hscene (tracks_of_passage hkept hcarried)
    · exact h.of_scene_eq hscene (tracks_of_free hfree)
    · refine h.of_scene_eq hscene ?_
      rw [hshipped]
      exact tracks_afterShipping hcarried

end Turn

end LogShipping.Worker
