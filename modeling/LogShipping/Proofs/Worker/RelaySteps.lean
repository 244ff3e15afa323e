import LogShipping.Proofs.Worker.Headway

/-!
# A relay stays orderly

Each step of a worker, and each thing that happens to it or around it, keeps a relay orderly: what is
read is a passage that fits, the position moves over a passage only after the peer acknowledged it, a file
is taken off where nothing more was found in it, and others change nothing that was passed.
-/

namespace LogShipping.Worker

open Log QueueTables

/-! ## The queue after an operation -/

section Scenes

variable {scene : Scene} {file : FileRef} {offset : Nat} {queues : QueueTables}

theorem Scene.withQueues_advance {stop : Nat} (hposition : scene.position? = some (file, offset))
    (hadvance : scene.database.queues.advance scene.key offset ⟨file.seq, stop⟩ = .ok queues) :
    (scene.withQueues queues).listed = scene.listed ∧
      (scene.withQueues queues).position? = some (file, stop) := by
  obtain ⟨hhead, -⟩ := Scene.position?_eq_some_iff.mp hposition
  obtain ⟨queue, hqueue, -, hafter⟩ := get?_of_advance hadvance
  obtain ⟨_, -, rfl⟩ := get?_eq_some_iff.mp hqueue
  obtain ⟨current, hcurrent, hsame⟩ := get?_eq_some_iff.mp hafter
  injection hsame with _ hfiles hstop
  subst hstop
  have hlisted : (scene.withQueues queues).listed = scene.listed := hfiles.symm
  exact ⟨hlisted, Scene.position?_eq_some_iff.mpr ⟨hlisted ▸ hhead, hcurrent⟩⟩

theorem Scene.withQueues_finish (wf : scene.database.queues.WellFormed)
    (hposition : scene.position? = some (file, offset))
    (hfinish : scene.database.queues.finish scene.key file.seq = .ok queues) :
    scene.listed = file :: (scene.withQueues queues).listed ∧
      queues.offset? scene.key = some 0 := by
  obtain ⟨hhead, -⟩ := Scene.position?_eq_some_iff.mp hposition
  obtain ⟨head, later, current, hqueue, -, hafter⟩ := get?_of_finish wf hfinish
  obtain ⟨_, -, hthere⟩ := get?_eq_some_iff.mp hqueue
  injection hthere with _ hfiles _
  obtain ⟨first, hzero, hnow⟩ := get?_eq_some_iff.mp hafter
  injection hnow with _ hlater hstart
  subst hstart
  have hlisted : scene.listed = head :: later := hfiles.symm
  rw [hlisted] at hhead
  cases hhead
  exact ⟨by rw [hlisted]; exact congrArg (file :: ·) hlater, hzero⟩

theorem Scene.withQueues_remove (wf : scene.database.queues.WellFormed) :
    (scene.withQueues (scene.database.queues.remove scene.key)).listed = [] ∧
      (scene.database.queues.remove scene.key).offset? scene.key = none := by
  have hnone : (scene.database.queues.remove scene.key).offset? scene.key = none := by
    rw [offset?_remove, if_pos rfl]
  refine ⟨List.eq_nil_iff_forall_not_mem.mpr fun file hfile ↦ ?_, hnone⟩
  have hlists : (scene.database.queues.remove scene.key).lists scene.key file.seq = true :=
    lists_iff_mem_filesOf.mpr ⟨file, hfile, rfl⟩
  rw [(wf.remove scene.key).not_lists hnone file.seq] at hlists
  cases hlists

end Scenes

namespace Relay

variable {queue : Queue} {schema : Schema} {original : Directory} {relay : Relay}

/-! ## What is heard in a step -/

@[simp] theorem turn_hear (relay : Relay) : relay.hold.hear.turn = relay.turn := by
  unfold hear
  split <;> rfl

@[simp] theorem scene_hear (relay : Relay) : relay.hold.hear.scene = relay.scene := by
  rw [scene, turn_hear, scene]

@[simp] theorem finished_hear (relay : Relay) : relay.hold.hear.finished = relay.finished := by
  unfold hear
  split <;> rfl

/-- An acknowledgement is heard. -/
theorem mem_acknowledged_hear {passage : Passage}
    (hp : relay.turn.worker.phase.passage? = some passage)
    (h : relay.turn.acknowledges? = some passage.shipment) : passage ∈ relay.hold.hear.acknowledged := by
  have hdelivers : relay.hold.turn.delivers? = some passage := by
    rw [Turn.delivers?, hold, h, hp]
    rfl
  unfold hear
  rw [hdelivers]
  exact List.mem_append_right _ List.mem_cons_self

/-- A step in which no file is taken off. -/
theorem work_eq (h : relay.turn.finishes? = none) :
    relay.work = relay.hold.hear.setTurn (step relay.turn) := by
  rw [work, Turn.leaves?, h, Option.bind_none, Option.toList_none, List.append_nil, ← finished_hear,
    setTurn]

/-- A step in which the first file is taken off. -/
theorem work_eq_of_finishes {file : FileRef} {offset : Nat} (h : relay.turn.finishes? = some file)
    (hposition : relay.scene.position? = some (file, offset)) :
    relay.work = { relay.hold.hear.setTurn (step relay.turn) with
      finished := relay.hold.hear.finished ++ [⟨file, offset⟩] } := by
  have hleaves : relay.turn.leaves? = some ⟨file, offset⟩ := by
    have hoffset := (Scene.position?_eq_some_iff.mp hposition).2
    rw [Turn.leaves?, h, Option.bind_some, ← scene, hoffset]
    rfl
  rw [work, hleaves, finished_hear, setTurn, Option.toList_some]

namespace Orderly

/-! ## Steps that leave the scene alone -/

section Quiet

variable (h : Orderly queue schema original relay)

include h

theorem work_of_scene (hscene : (step relay.turn).scene = relay.scene)
    (hfinishes : relay.turn.finishes? = none)
    (hinHand : relay.hold.hear.InHand queue schema original (step relay.turn).worker.phase) :
    Orderly queue schema original relay.work := by
  rw [work_eq hfinishes]
  exact h.hear.setTurn (hscene.trans (scene_hear relay).symm) hinHand

theorem work_of_idles (hidles : relay.turn.Idles (step relay.turn))
    (hfinishes : relay.turn.finishes? = none) : Orderly queue schema original relay.work :=
  h.work_of_scene hidles.1 hfinishes (inHand_of_free hidles.2)

theorem work_of_free (hfree : relay.turn.worker.phase.Free)
    (hloading : relay.turn.worker.phase ≠ .loading) : Orderly queue schema original relay.work :=
  h.work_of_idles (Turn.step_of_free hfree hloading) (relay.turn.quiet (Phase.quiet_of_free hfree)).2

theorem work_of_passage {passage : Passage} (hp : relay.turn.worker.phase.passage? = some passage) :
    Orderly queue schema original relay.work := by
  have hinHand := h.hear.inHand
  rw [turn_hear] at hinHand
  have hfits := hinHand.fits hp
  have hfinishes := (relay.turn.quiet (Phase.quiet_of_passage hp)).2
  rcases Turn.step_of_passage hp with ⟨hscene, hkept | hfree⟩ | ⟨hanswer, hscene, hafter⟩
  · exact h.work_of_scene hscene hfinishes (inHand_of_passage hkept hfits)
  · exact h.work_of_scene hscene hfinishes (inHand_of_free hfree)
  · apply h.work_of_scene hscene hfinishes
    rw [hafter]
    exact inHand_afterShipping hfits (.inr (mem_acknowledged_hear hp hanswer))

/-- A queue that is found empty has taken off every file it had. -/
theorem inHand_dropping (hempty : relay.scene.listed = []) :
    relay.InHand queue schema original .dropping := by
  constructor
  · have hlisted := h.listed
    rw [files, hempty, List.append_nil] at hlisted
    exact hlisted
  · intro passage hpassage
    obtain ⟨-, offset, hreached, hle⟩ := h.drawn passage hpassage
    refine ⟨offset, hreached.resolve_right ?_, hle⟩
    rw [Scene.position?_eq_none_of_empty hempty]
    nofun

theorem work_of_loading (hphase : relay.turn.worker.phase = .loading) :
    Orderly queue schema original relay.work := by
  have hstep : step relay.turn = relay.turn.load := Turn.step_loading hphase
  have hfinishes := (relay.turn.quiet (by rw [hphase]; trivial)).2
  rcases relay.turn.load_cases with hidles | ⟨loaded, hloaded, hscene, hway⟩
  · exact h.work_of_idles (hstep ▸ hidles) hfinishes
  · obtain ⟨offset, hoffset, rfl⟩ := get?_eq_some_iff.mp hloaded
    apply h.work_of_scene (hstep ▸ hscene) hfinishes
    rw [hstep]
    rcases hway with ⟨hempty, -, hgone⟩ | ⟨file, hhead, hread⟩
    · rw [hgone]
      refine h.hear.inHand_dropping ?_
      rw [scene_hear]
      exact List.head?_eq_none_iff.mp hempty
    · rw [hread, InHand, scene_hear]
      exact Scene.position?_eq_some_iff.mpr ⟨hhead, hoffset⟩

/-- Where a file was read as far as it could be, nothing that is underway reaches further. -/
theorem spent_of_position {file : FileRef} {offset stop : Nat}
    (hposition : relay.scene.position? = some (file, offset))
    (hread : ∀ content, content? relay.scene.directory file = some content →
      (∃ read, Chain content offset stop read) ∧ Frame.decode (content.drop stop) = .incomplete) :
    Spent queue original relay.underway relay.scene.directory file stop where
  within passage hpassage hfile := by
    obtain ⟨⟨content, before, _, hcontent, hbefore, hpassage, -⟩, -⟩ := h.drawn passage hpassage
    rw [hfile] at hcontent hbefore
    obtain ⟨_, hstart⟩ := h.reached file offset content (.inr hposition) hcontent
    obtain ⟨⟨_, hrest⟩, hend⟩ := hread content hcontent
    exact (hstart.append hrest).le_of_incomplete hend (hbefore.append hpassage)
  told content hcontent := by
    refine ⟨content, [], (List.append_nil content).symm, (hread content hcontent).2,
      fun hhead first hfirst ↦ ?_⟩
    obtain ⟨more, hmore⟩ := (h.written file hhead).content hfirst
    cases hmore.symm.trans hcontent
    exact List.prefix_append first more

theorem work_of_reading {file : FileRef} {offset : Nat} {hasNext : Bool}
    (hphase : relay.turn.worker.phase = .reading file offset hasNext) :
    Orderly queue schema original relay.work := by
  have hstep : step relay.turn = relay.turn.read file offset hasNext := Turn.step_reading hphase
  have hfinishes := (relay.turn.quiet (by rw [hphase]; trivial)).2
  have hposition := h.hear.inHand
  rw [turn_hear, hphase, InHand] at hposition
  have hthere : relay.hold.hear.scene.directory = relay.turn.world.directory := by
    rw [scene_hear]
    rfl
  cases hcontent : content? relay.turn.world.directory file with
  | none =>
    rcases Turn.read_cases_of_missing offset hasNext hcontent with hidles | ⟨hscene, hgone⟩
    · exact h.work_of_idles (hstep ▸ hidles) hfinishes
    · apply h.work_of_scene (hstep ▸ hscene) hfinishes
      rw [hstep, hgone]
      refine ⟨offset, hposition, h.hear.spent_of_position hposition fun content hfound ↦ ?_⟩
      rw [hthere] at hfound
      cases hcontent.symm.trans hfound
  | some content =>
    rcases Turn.read_cases offset hasNext hcontent with hidles | ⟨batch, htaken, hread⟩
    · exact h.work_of_idles (hstep ▸ hidles) hfinishes
    · obtain ⟨hstart, read, hchain, hentries, hexhausted⟩ := Batch.take_chain rfl htaken
      obtain ⟨hscene, passage, hshipment, rfl, hpstart, hpstop, hfinishable, hway⟩ :=
        relay.turn.takeBatch_cases file (relay.turn.activeLength? file).isNone hasNext batch
      have hstarts : passage.start = offset := hpstart.trans hstart
      rw [← hpstart, ← hpstop] at hchain
      have hfits : Fits queue schema original relay.hold.hear.underway relay.hold.hear.scene passage := by
        constructor
        case position => rw [hposition, hstarts]
        case read =>
          refine ⟨content, read, by rw [hthere, hcontent], hchain, ?_⟩
          rw [hshipment, hentries, ← h.fixed]
          rfl
        case spent =>
          intro hdone
          obtain ⟨hend, hunlimited, -⟩ := hfinishable hdone
          refine h.hear.spent_of_position hposition fun other hother ↦ ?_
          rw [hthere] at hother
          cases hcontent.symm.trans hother
          rw [← hstarts, hpstop]
          exact ⟨⟨read, hpstop ▸ hchain⟩, hexhausted (Option.isNone_iff_eq_none.mp hunlimited) hend⟩
      rw [← hread, ← hstep] at hscene hway
      apply h.work_of_scene hscene hfinishes
      rcases hway with hshipping | ⟨hempty, hafter⟩
      · rw [hshipping]
        exact inHand_of_passage rfl hfits
      · rw [hafter]
        exact inHand_afterShipping hfits (.inl (hshipment.trans hempty))

end Quiet

/-! ## Steps that move the position -/

section Moving

variable {queues : QueueTables} {turn : Turn}

/-- The position moves over a passage that was acknowledged, or that has nothing to be shipped. -/
theorem advance (h : Orderly queue schema original relay) {passage : Passage}
    (hfits : Fits queue schema original relay.underway relay.scene passage)
    (hacknowledged : passage.shipment.entries = [] ∨ passage ∈ relay.acknowledged)
    (hadvance : relay.scene.database.queues.advance relay.scene.key passage.start passage.target =
      .ok queues)
    (hscene : turn.scene = relay.scene.withQueues queues)
    (hinHand : (relay.setTurn turn).InHand queue schema original turn.worker.phase) :
    Orderly queue schema original (relay.setTurn turn) := by
  obtain ⟨hhead, hoffset⟩ := Scene.position?_eq_some_iff.mp hfits.position
  obtain ⟨hlisted, hposition⟩ := Scene.withQueues_advance hfits.position hadvance
  obtain ⟨content, read, hcontent, hread, hentries⟩ := hfits.read
  have hle := hread.le
  have hnow : (relay.setTurn turn).scene = relay.scene.withQueues queues := hscene
  have hdirectory : (relay.setTurn turn).scene.directory = relay.scene.directory := by rw [hnow]; rfl
  have hfiles : (relay.setTurn turn).files = relay.files := by
    rw [files, hnow, hlisted]
    rfl
  have hdue : (relay.setTurn turn).Due queue schema = relay.Due queue schema := by
    unfold Due
    rw [hfiles, hdirectory]
  have hreached {file : FileRef} {offset : Nat} (hthere : (relay.setTurn turn).Reached file offset) :
      ⟨file, offset⟩ ∈ relay.finished ∨ passage.file = file ∧ passage.stop = offset := by
    refine hthere.imp_right fun hat ↦ ?_
    rw [hnow, hposition] at hat
    cases hat
    exact ⟨rfl, rfl⟩
  constructor
  case fixed => rw [hnow]; exact h.fixed
  case wellFormed =>
    rw [hnow]
    exact h.wellFormed.perform (.advance relay.scene.key passage.start passage.target) hadvance
  case fresh =>
    intro _ _ hempty
    rw [hnow, hlisted] at hempty
    rw [hempty] at hhead
    cases hhead
  case listed => exact hfiles ▸ h.listed
  case ascending => exact hfiles ▸ h.ascending
  case written => rw [hdirectory]; exact h.written
  case reached =>
    intro file offset other hthere hother
    rw [hdirectory] at hother
    rcases hreached hthere with hdone | ⟨rfl, rfl⟩
    · exact h.reached file offset other (.inl hdone) hother
    · cases hcontent.symm.trans hother
      obtain ⟨before, hbefore⟩ := h.reached _ _ content (.inr hfits.position) hcontent
      exact ⟨before ++ read, hbefore.append hread⟩
  case spent => rw [hdirectory]; exact h.spent
  case settled =>
    intro place hpassed hplace
    rw [hdue] at hplace
    by_cases hold : relay.Passed place
    case pos => exact h.settled place hold hplace
    case neg =>
      -- The place lies in the passage, so its record is in the shipment.
      obtain ⟨offset, hthere, hlt⟩ := hpassed
      obtain ⟨hfile, rfl⟩ := (hreached hthere).resolve_left fun hdone ↦ hold ⟨offset, .inl hdone, hlt⟩
      have hstart : passage.start ≤ place.offset := by
        refine Nat.not_lt.mp fun hbefore ↦ hold ⟨passage.start, .inr ?_, hbefore⟩
        rw [hfits.position, hfile]
      have hcovers : passage.covers place = true := Passage.covers_iff.mpr ⟨hfile, hstart, hlt⟩
      obtain ⟨-, entry, kept, hrecorded, hkept⟩ := hplace
      have hin := (h.drawn_of_fits hfits).1.mem_entries hcovers hrecorded hkept
      refine ⟨passage, hacknowledged.resolve_left fun hempty ↦ ?_, hcovers⟩
      rw [hempty] at hin
      cases hin
  case drawn =>
    intro other hother
    obtain ⟨hdrawn, offset, hthere, hstart⟩ := h.drawn other hother
    refine ⟨hdirectory ▸ hdrawn, ?_⟩
    rcases hthere with hdone | hat
    · exact ⟨offset, .inl hdone, hstart⟩
    · rw [hfits.position] at hat
      injection hat with hat
      injection hat with hfile hoffset
      refine ⟨passage.stop, .inr ?_, by omega⟩
      rw [hnow, hposition, hfile]
  case arrived => exact h.arrived
  case acknowledged => exact h.acknowledged
  case inOrder => rw [hdue]; exact h.inOrder
  case inHand => exact hinHand

section Finish

variable {after : Relay} {file : FileRef} {offset : Nat}

theorem files_of_finish (hdone : after.done = relay.done ++ [file])
    (hlisted : relay.scene.listed = file :: after.scene.listed) : after.files = relay.files := by
  rw [files, hdone, List.append_assoc, List.singleton_append, ← hlisted, files]

/-- Where a file was taken off, the queue had come to that before; else it stands at the start of the next
file. -/
theorem reached_of_finish (h : Orderly queue schema original relay)
    (hposition : relay.scene.position? = some (file, offset))
    (hfinished : after.finished = relay.finished ++ [⟨file, offset⟩]) (hfiles : after.files = relay.files)
    (hzero : after.scene.database.queues.offset? after.scene.key = some 0) {other : FileRef} {start : Nat}
    (hthere : after.Reached other start) :
    relay.Reached other start ∨ start = 0 ∧ queue.firstOffset other = 0 := by
  rcases hthere with hmem | hat
  · rw [hfinished] at hmem
    rcases List.mem_append.mp hmem with hold | hnew
    · exact .inl (.inl hold)
    · cases List.mem_singleton.mp hnew
      exact .inl (.inr hposition)
  · obtain ⟨hhead, hstart⟩ := Scene.position?_eq_some_iff.mp hat
    obtain ⟨added, hadded⟩ := h.listed
    have hascending := h.ascending
    rw [← hfiles, files] at hadded hascending
    refine .inr ⟨(Option.some.inj (hzero.symm.trans hstart)).symm, ?_⟩
    refine firstOffset_eq_zero hadded hascending (List.mem_of_head? hhead) (.inl ?_)
    rw [done, hfinished, List.map_append]
    exact List.append_ne_nil_of_right_ne_nil _ (List.cons_ne_nil file [])

/-- What the queue had come to, it has come to. -/
theorem reached_finish (hposition : relay.scene.position? = some (file, offset))
    (hfinished : after.finished = relay.finished ++ [⟨file, offset⟩]) {other : FileRef} {start : Nat}
    (hthere : relay.Reached other start) : after.Reached other start := by
  left
  rw [hfinished]
  rcases hthere with hold | hat
  · exact List.mem_append_left _ hold
  · cases hposition.symm.trans hat
    exact List.mem_append_right _ List.mem_cons_self

/-- A file is taken off in which nothing more was found. -/
theorem finish (h : Orderly queue schema original relay)
    (hposition : relay.scene.position? = some (file, offset))
    (hspent : Spent queue original relay.underway relay.scene.directory file offset)
    (hfinish : relay.scene.database.queues.finish relay.scene.key file.seq = .ok queues)
    (hscene : turn.scene = relay.scene.withQueues queues) (hfree : turn.worker.phase.Free) :
    Orderly queue schema original
      { relay.setTurn turn with finished := relay.finished ++ [⟨file, offset⟩] } := by
  obtain ⟨hlisted, hzero⟩ := Scene.withQueues_finish h.wellFormed hposition hfinish
  generalize hafter :
    ({ relay.setTurn turn with finished := relay.finished ++ [⟨file, offset⟩] } : Relay) = after
  have hnow : after.scene = relay.scene.withQueues queues := hafter ▸ hscene
  have hfinished : after.finished = relay.finished ++ [⟨file, offset⟩] := hafter ▸ rfl
  have hunderway : after.underway = relay.underway := hafter ▸ rfl
  have hdirectory : after.scene.directory = relay.scene.directory := by rw [hnow]; rfl
  have hdone : after.done = relay.done ++ [file] := by
    rw [done, hfinished, List.map_append]
    rfl
  have hfiles : after.files = relay.files := files_of_finish hdone (by rw [hnow]; exact hlisted)
  have hdue : after.Due queue schema = relay.Due queue schema := by
    unfold Due
    rw [hfiles, hdirectory]
  have hstart : after.scene.database.queues.offset? after.scene.key = some 0 := by
    rw [hnow]
    exact hzero
  constructor
  case fixed => rw [hnow]; exact h.fixed
  case wellFormed =>
    rw [hnow]
    exact h.wellFormed.perform (.finish relay.scene.key file.seq) hfinish
  case fresh => exact fun start hat _ ↦ (Option.some.inj (hstart.symm.trans hat)).symm
  case listed => rw [hfiles]; exact h.listed
  case ascending => rw [hfiles]; exact h.ascending
  case written => rw [hdirectory]; exact h.written
  case reached =>
    intro other start content hthere hcontent
    rw [hdirectory] at hcontent
    rcases h.reached_of_finish hposition hfinished hfiles hstart hthere with hold | ⟨rfl, hfirst⟩
    · exact h.reached other start content hold hcontent
    · exact ⟨[], by rw [hfirst]; exact .nil 0⟩
  case spent =>
    intro place hplace
    rw [hfinished] at hplace
    rw [hunderway, hdirectory]
    rcases List.mem_append.mp hplace with hold | hnew
    · exact h.spent place hold
    · cases List.mem_singleton.mp hnew
      exact hspent
  case settled =>
    intro place hpassed hplace
    obtain ⟨start, hthere, hlt⟩ := hpassed
    rw [hdue] at hplace
    have hreached := h.reached_of_finish hposition hfinished hfiles hstart hthere
    subst hafter
    rcases hreached with hold | ⟨rfl, -⟩
    · exact h.settled place ⟨start, hold, hlt⟩ hplace
    · exact absurd hlt (Nat.not_lt_zero _)
  case drawn =>
    intro passage hpassage
    rw [hunderway] at hpassage
    obtain ⟨hdrawn, start, hthere, hle⟩ := h.drawn passage hpassage
    exact ⟨hdirectory ▸ hdrawn, start, reached_finish hposition hfinished hthere, hle⟩
  case arrived => subst hafter; exact h.arrived
  case acknowledged => subst hafter; exact h.acknowledged
  case inOrder =>
    intro x y hx hmissed
    rw [hdue] at hx
    subst hafter
    refine h.inOrder x y hx fun hbefore ↦ ?_
    obtain ⟨stop, hmem, hle⟩ := hbefore
    exact hmissed ⟨stop, List.mem_append_left _ hmem, hle⟩
  case inHand =>
    subst hafter
    exact inHand_of_free hfree

end Finish

/-- A queue is dropped after all the files it began with were taken off. -/
theorem drop (h : Orderly queue schema original relay)
    (hdropping : relay.InHand queue schema original .dropping)
    (hscene : turn.scene =
      relay.scene.withQueues (relay.scene.database.queues.remove relay.scene.key))
    (hfree : turn.worker.phase.Free) : Orderly queue schema original (relay.setTurn turn) := by
  obtain ⟨hall, hbegun⟩ := hdropping
  obtain ⟨hlisted, hnone⟩ := Scene.withQueues_remove h.wellFormed
  have hnow : (relay.setTurn turn).scene =
      relay.scene.withQueues (relay.scene.database.queues.remove relay.scene.key) := hscene
  have hdirectory : (relay.setTurn turn).scene.directory = relay.scene.directory := by rw [hnow]; rfl
  have hfiles : (relay.setTurn turn).files = relay.done := by
    rw [files, hnow, hlisted, List.append_nil]
    rfl
  have hdue {place : LogPlace} (hplace : (relay.setTurn turn).Due queue schema place) :
      relay.Due queue schema place := by
    rw [Due, hfiles, hdirectory] at hplace
    exact ⟨List.mem_append_left _ hplace.1, hplace.2⟩
  have hreached {file : FileRef} {offset : Nat} (hthere : (relay.setTurn turn).Reached file offset) :
      relay.Reached file offset := by
    refine hthere.imp_right fun hat ↦ ?_
    rw [hnow, Scene.position?_eq_none_of_empty hlisted] at hat
    cases hat
  constructor
  case fixed => rw [hnow]; exact h.fixed
  case wellFormed => rw [hnow]; exact h.wellFormed.remove relay.scene.key
  case fresh =>
    intro offset hat _
    rw [hnow] at hat
    cases hnone.symm.trans hat
  case listed => exact hfiles ▸ hall
  case ascending => exact hfiles ▸ (List.pairwise_append.mp h.ascending).1
  case written => rw [hdirectory]; exact h.written
  case reached =>
    intro file offset content hthere hcontent
    exact h.reached file offset content (hreached hthere) (hdirectory ▸ hcontent)
  case spent => rw [hdirectory]; exact h.spent
  case settled =>
    intro place ⟨offset, hthere, hlt⟩ hplace
    exact h.settled place ⟨offset, hreached hthere, hlt⟩ (hdue hplace)
  case drawn =>
    intro passage hpassage
    obtain ⟨offset, hthere, hle⟩ := hbegun passage hpassage
    exact ⟨hdirectory ▸ (h.drawn passage hpassage).1, offset, .inl hthere, hle⟩
  case arrived => exact h.arrived
  case acknowledged => exact h.acknowledged
  case inOrder => exact fun x y hx ↦ h.inOrder x y (hdue hx)
  case inHand => exact inHand_of_free hfree

end Moving

/-! ## What happens around the worker -/

section Around

variable {turn : Turn}

/-- What was there of the files that the queue has come to is there still. -/
theorem due_of_spares (hspares : Spares relay.finished relay.scene turn.scene) {place : LogPlace}
    (hdue : (relay.setTurn turn).Due queue schema place)
    (hfile : place.file ∈ relay.done ∨ relay.scene.listed.head? = some place.file)
    (hchain : ∀ content, content? relay.scene.directory place.file = some content →
      ∃ stop before, Chain content (queue.firstOffset place.file) stop before ∧ place.offset < stop) :
    relay.Due queue schema place := by
  obtain ⟨-, entry, kept, ⟨content, hcontent, hfound⟩, hkept⟩ := hdue
  have hcontinues := hspares.written place.file hfile
  refine ⟨List.mem_append.mpr (hfile.imp_right List.mem_of_head?), entry, kept, ?_, hkept⟩
  cases hold : content? relay.scene.directory place.file with
  | none => cases (hcontinues.missing hold).symm.trans hcontent
  | some before =>
    obtain ⟨more, hmore⟩ := hcontinues.content hold
    cases hmore.symm.trans hcontent
    obtain ⟨stop, entries, hread, hlt⟩ := hchain before hold
    exact ⟨before, hold, .of_append hread hlt hfound⟩

/-- Nothing that others do takes from a worker what it has in hand. -/
theorem inHand_of_spares (hspares : Spares relay.finished relay.scene turn.scene) {phase : Phase}
    (hinHand : relay.InHand queue schema original phase) :
    (relay.setTurn turn).InHand queue schema original phase := by
  cases phase with
  | reading file offset hasNext => exact hspares.position hinHand
  | dropping => exact hinHand
  | advancing passage => exact ⟨hinHand.1.of_spares hspares, hinHand.2⟩
  | finishing file =>
    obtain ⟨offset, hposition, hspent⟩ := hinHand
    have hhead := (Scene.position?_eq_some_iff.mp hposition).1
    exact ⟨offset, hspares.position hposition, hspent.of_continues (hspares.written file (.inr hhead))⟩
  | _ => exact fun passage hp ↦ (hinHand passage hp).of_spares hspares

/-- The first file of the queue as it was given was taken off, or is the first one listed. -/
theorem head_mem (h : Orderly queue schema original relay) {head : FileRef}
    (hhead : queue.head? = some head) : head ∈ relay.done ∨ relay.scene.listed.head? = some head := by
  obtain ⟨added, hlisted⟩ := h.listed
  obtain ⟨later, hfiles⟩ := List.head?_eq_some_iff.mp hhead
  have hfirst : relay.files.head? = some head := by
    rw [hlisted, hfiles]
    rfl
  rw [files, List.head?_append] at hfirst
  rcases Option.or_eq_some_iff.mp hfirst with hdone | ⟨-, hhead⟩
  · exact .inl (List.mem_of_head? hdone)
  · exact .inr hhead

theorem ascending_of_spares (h : Orderly queue schema original relay)
    (hspares : Spares relay.finished relay.scene turn.scene) :
    (relay.done ++ turn.scene.listed).Pairwise fun x y ↦ rank x.seq < rank y.seq := by
  refine List.pairwise_append.mpr ⟨(List.pairwise_append.mp h.ascending).1, ?_, ?_⟩
  · exact hspares.wellFormed.pairwise_filesOf_lt turn.scene.key
  · intro file hfile other hother
    obtain ⟨offset, hplace⟩ := mem_done.mp hfile
    exact hspares.later _ hplace other hother

theorem listed_of_spares (h : Orderly queue schema original relay)
    (hspares : Spares relay.finished relay.scene turn.scene) :
    ∃ added, relay.done ++ turn.scene.listed = queue.files ++ added := by
  obtain ⟨added, hnow⟩ := hspares.listed
  obtain ⟨earlier, hearlier⟩ := h.listed
  exact ⟨earlier ++ added, by rw [hnow, ← List.append_assoc, ← List.append_assoc, ← hearlier, files]⟩

/-- The position stays, unless the queue had no files and its first one is listed. -/
theorem reached_of_spares (h : Orderly queue schema original relay)
    (hspares : Spares relay.finished relay.scene turn.scene) {file : FileRef} {offset : Nat}
    (hthere : (relay.setTurn turn).Reached file offset) :
    relay.Reached file offset ∨ offset = 0 ∧ queue.firstOffset file = 0 := by
  rcases hthere with hdone | hat
  · exact .inl (.inl hdone)
  obtain ⟨hhead, hoffset⟩ := Scene.position?_eq_some_iff.mp hat
  have hoffset := hspares.offset ▸ hoffset
  have hhead : turn.scene.listed.head? = some file := hhead
  cases hold : relay.scene.listed with
  | cons first rest =>
    obtain ⟨added, hnow⟩ := hspares.listed
    rw [hnow, hold, List.cons_append, List.head?_cons] at hhead
    refine .inl (.inr (Scene.position?_eq_some_iff.mpr ⟨?_, hoffset⟩))
    rw [hold, List.head?_cons, hhead]
  | nil =>
    obtain ⟨earlier, hearlier⟩ := h.listed
    obtain ⟨added, hlisted⟩ := h.listed_of_spares hspares
    refine .inr ⟨h.fresh offset hoffset hold, ?_⟩
    refine firstOffset_eq_zero hlisted (h.ascending_of_spares hspares) (List.mem_of_head? hhead) ?_
    rw [files, hold, List.append_nil] at hearlier
    cases hfiles : queue.files with
    | nil => exact .inr rfl
    | cons first rest =>
      rw [hearlier, hfiles]
      exact .inl (List.cons_ne_nil first _)

/-- What arrives in order does so whatever is written or listed later. -/
theorem inOrder_of_spares (h : Orderly queue schema original relay)
    (hspares : Spares relay.finished relay.scene turn.scene) {x y : LogPlace}
    (hdue : (relay.setTurn turn).Due queue schema x) (hmissed : ¬ relay.Missed x) (hbefore : x.Before y) :
    relay.firstArrival x ≤ relay.firstArrival y := by
  by_cases hthere : relay.firstArrival y < relay.arrived.length
  case neg => exact Nat.le_trans (relay.firstArrival_le x) (Nat.not_lt.mp hthere)
  case pos =>
    obtain ⟨passage, hpassage, hcovers⟩ := List.findIdx_lt_length.mp hthere
    obtain ⟨⟨content, before, read, hcontent, hfirst, hread, -⟩, _, hbegun, -⟩ :=
      h.drawn passage (h.arrived passage hpassage)
    have hfile := (hbegun.of_spares hspares).file_mem
    -- The earlier place was there before, so it is in order as it was.
    suffices hold : relay.Due queue schema x from h.inOrder x y hold hmissed hbefore
    rcases file_of_before (h.ascending_of_spares hspares) hfile hdue.1 hbefore hcovers with
      hdone | ⟨hsame, hstop⟩
    · have hpassed : relay.Passed x := passed_of_mem_done hdone hmissed
      obtain ⟨stop, hreached, hlt⟩ := hpassed
      refine due_of_spares hspares hdue (.inl hdone) fun other hother ↦ ?_
      obtain ⟨entries, hchain⟩ := h.reached _ _ other hreached hother
      exact ⟨stop, entries, hchain, hlt⟩
    · refine due_of_spares hspares hdue (hsame ▸ hbegun.file_mem) fun other hother ↦ ?_
      rw [hsame] at hother ⊢
      cases hcontent.symm.trans hother
      exact ⟨passage.stop, before ++ read, hfirst.append hread, hstop⟩

/-- The queue goes on in another scene in which it stands where it stood. -/
theorem goOn (h : Orderly queue schema original relay)
    (hspares : Spares relay.finished relay.scene turn.scene)
    (hinHand : (relay.setTurn turn).InHand queue schema original turn.worker.phase) :
    Orderly queue schema original (relay.setTurn turn) := by
  have hcontinues {file : FileRef} {offset : Nat} (hthere : relay.Reached file offset) :
      Continues relay.scene.directory turn.scene.directory file :=
    hspares.written file hthere.file_mem
  constructor
  case fixed => exact hspares.schema.trans h.fixed
  case wellFormed => exact hspares.wellFormed
  case fresh =>
    intro offset hat hempty
    obtain ⟨added, hnow⟩ := hspares.listed
    have hempty : turn.scene.listed = [] := hempty
    rw [hnow, List.append_eq_nil_iff] at hempty
    exact h.fresh offset (hspares.offset ▸ hat) hempty.1
  case listed => exact h.listed_of_spares hspares
  case ascending => exact h.ascending_of_spares hspares
  case written =>
    exact fun head hhead ↦ (h.written head hhead).trans (hspares.written head (h.head_mem hhead))
  case reached =>
    intro file offset content hthere hcontent
    rcases h.reached_of_spares hspares hthere with hold | ⟨rfl, hfirst⟩
    · cases hbefore : content? relay.scene.directory file with
      | none => cases ((hcontinues hold).missing hbefore).symm.trans hcontent
      | some before =>
        obtain ⟨entries, hread⟩ := h.reached _ _ before hold hbefore
        obtain ⟨more, hmore⟩ := (hcontinues hold).content hbefore
        cases hmore.symm.trans hcontent
        exact ⟨entries, hread.append_right more⟩
    · exact ⟨[], by rw [hfirst]; exact .nil 0⟩
  case spent =>
    intro place hplace
    exact (h.spent place hplace).of_continues
      (hspares.written place.file (.inl (mem_done.mpr ⟨place.offset, hplace⟩)))
  case settled =>
    intro place ⟨offset, hthere, hlt⟩ hdue
    rcases h.reached_of_spares hspares hthere with hold | ⟨rfl, -⟩
    · refine h.settled place ⟨offset, hold, hlt⟩
        (due_of_spares hspares hdue hold.file_mem fun content hcontent ↦ ?_)
      obtain ⟨entries, hread⟩ := h.reached _ _ content hold hcontent
      exact ⟨offset, entries, hread, hlt⟩
    · exact absurd hlt (Nat.not_lt_zero _)
  case drawn =>
    intro passage hpassage
    obtain ⟨⟨content, before, read, hcontent, hbefore, hread, hentries⟩, offset, hthere, hle⟩ :=
      h.drawn passage hpassage
    obtain ⟨more, hmore⟩ := (hcontinues hthere).content hcontent
    exact ⟨⟨content ++ more, before, read, hmore, hbefore.append_right more, hread.append_right more,
      hentries⟩, offset, hthere.of_spares hspares, hle⟩
  case arrived => exact h.arrived
  case acknowledged => exact h.acknowledged
  case inOrder => exact fun x y ↦ h.inOrder_of_spares hspares
  case inHand => exact hinHand

/-- Under a new name that was free the queue is what it was. -/
theorem spares_of_rename (h : Orderly queue schema original relay) {target : QueueKey}
    (hfree : relay.scene.database.queues.offset? target = none)
    (hscene : turn.scene =
      { relay.scene.withQueues (relay.scene.database.queues.rename relay.scene.key target) with
        key := target }) :
    Spares relay.finished relay.scene turn.scene := by
  have hlisted : turn.scene.listed = relay.scene.listed := by
    rw [hscene]
    exact filesOf_rename h.wellFormed relay.scene.key hfree
  rw [hscene] at hlisted ⊢
  constructor
  case schema => rfl
  case wellFormed => exact h.wellFormed.rename hfree
  case offset => exact (offset?_rename hfree _).trans (if_pos rfl)
  case listed => exact ⟨[], by rw [hlisted, List.append_nil]⟩
  case later =>
    intro done hdone file hfile
    rw [hlisted] at hfile
    have hacross := (List.pairwise_append.mp h.ascending).2.2
    exact hacross done.file (mem_done.mpr ⟨done.offset, hdone⟩) file hfile
  case written => exact fun _ _ ↦ Stays.continues rfl

/-- The queue is handed over. -/
theorem handOver (h : Orderly queue schema original relay) {owner : String} {queues : QueueTables}
    (hqueues : relay.scene.database.queues.handOver relay.scene.key owner = .ok queues)
    (hscene : turn.scene =
      { relay.scene.withQueues queues with key := relay.scene.key.withOwner owner })
    (hmerged : relay.scene.database.queues.offset? (relay.scene.key.withOwner owner) ≠ none →
      Spares relay.finished relay.scene turn.scene)
    (hphase : turn.worker.phase.Free) : Orderly queue schema original (relay.setTurn turn) := by
  refine h.goOn ?_ (inHand_of_free hphase)
  obtain ⟨offset, hoffset, ⟨hfree, rfl⟩ | ⟨there, hthere, -⟩⟩ := handOver_eq_ok_iff.mp hqueues
  case inl => exact h.spares_of_rename hfree hscene
  case inr => exact hmerged (by rw [hthere]; nofun)

end Around

/-! ## Runs -/

section Runs

variable (h : Orderly queue schema original relay)

include h

theorem work_of_dropping (hphase : relay.turn.worker.phase = .dropping) :
    Orderly queue schema original relay.work := by
  have hstep : step relay.turn = relay.turn.drop := Turn.step_dropping hphase
  have hfinishes := (relay.turn.quiet (by rw [hphase]; trivial)).2
  have hinHand := h.hear.inHand
  rw [turn_hear, hphase] at hinHand
  rcases relay.turn.drop_cases with ⟨hscene, hfree⟩ | hidles
  · rw [← hstep] at hscene hfree
    rw [work_eq hfinishes]
    refine h.hear.drop hinHand ?_ hfree
    rw [scene_hear]
    exact hscene
  · exact h.work_of_idles (hstep ▸ hidles) hfinishes

theorem work_of_advancing {passage : Passage} (hphase : relay.turn.worker.phase = .advancing passage) :
    Orderly queue schema original relay.work := by
  have hstep : step relay.turn = relay.turn.advance passage := Turn.step_advancing hphase
  have hfinishes : relay.turn.finishes? = none := by rw [Turn.finishes?, hphase]
  have hinHand := h.hear.inHand
  rw [turn_hear, hphase] at hinHand
  obtain ⟨hfits, hacknowledged⟩ := hinHand
  rcases Turn.advance_cases hphase with ⟨queues, hadvance, -, hscene, hafter⟩ | ⟨-, hidles, -⟩
  · rw [← hstep] at hscene hafter
    rw [work_eq hfinishes]
    have hnow : (step relay.turn).scene = relay.hold.hear.scene.withQueues queues := by
      rw [scene_hear]
      exact hscene
    have hmoved : relay.hold.hear.scene.database.queues.advance relay.hold.hear.scene.key passage.start
        passage.target = .ok queues := by
      rw [scene_hear]
      exact hadvance
    obtain ⟨hlisted, hposition⟩ := Scene.withQueues_advance hfits.position hmoved
    apply h.hear.advance hfits hacknowledged hmoved hnow
    rw [hafter]
    apply inHand_next
    · rw [← hposition, ← hnow]
      rfl
    · intro hfinishable
      have hdirectory : (relay.hold.hear.setTurn (step relay.turn)).scene.directory =
          relay.hold.hear.scene.directory := by
        show (step relay.turn).scene.directory = _
        rw [hnow]
        rfl
      rw [hdirectory]
      exact hfits.spent hfinishable
  · exact h.work_of_idles (hstep ▸ hidles) hfinishes

theorem work_of_finishing {file : FileRef} (hphase : relay.turn.worker.phase = .finishing file) :
    Orderly queue schema original relay.work := by
  have hstep : step relay.turn = relay.turn.finish file := Turn.step_finishing hphase
  have hinHand := h.hear.inHand
  rw [turn_hear, hphase] at hinHand
  obtain ⟨offset, hposition, hspent⟩ := hinHand
  rcases Turn.finish_cases hphase with ⟨queues, hfinish, hfinishes, hscene, hafter⟩ | ⟨hfinishes, hidles, -⟩
  · rw [work_eq_of_finishes hfinishes (scene_hear relay ▸ hposition)]
    apply h.hear.finish hposition hspent
    case hfinish =>
      rw [scene_hear]
      exact hfinish
    case hscene =>
      rw [scene_hear, hstep]
      exact hscene
    case hfree =>
      rw [hstep, hafter]
      trivial
  · exact h.work_of_idles (hstep ▸ hidles) hfinishes

/-- Every step of a worker keeps the relay orderly. -/
theorem work : Orderly queue schema original relay.work := by
  cases hphase : relay.turn.worker.phase with
  | ready => exact h.work_of_free (hphase ▸ trivial) (by rw [hphase]; nofun)
  | gated => exact h.work_of_free (hphase ▸ trivial) (by rw [hphase]; nofun)
  | loading => exact h.work_of_loading hphase
  | reading file offset hasNext => exact h.work_of_reading hphase
  | dropping => exact h.work_of_dropping hphase
  | shipping passage => exact h.work_of_passage (congrArg Phase.passage? hphase)
  | awaitingTokens passage count => exact h.work_of_passage (congrArg Phase.passage? hphase)
  | awaitingPlace passage => exact h.work_of_passage (congrArg Phase.passage? hphase)
  | calling passage => exact h.work_of_passage (congrArg Phase.passage? hphase)
  | inFlight passage number deadline => exact h.work_of_passage (congrArg Phase.passage? hphase)
  | backingOff passage wake => exact h.work_of_passage (congrArg Phase.passage? hphase)
  | advancing passage => exact h.work_of_advancing hphase
  | finishing file => exact h.work_of_finishing hphase
  | idle => exact h.work_of_free (hphase ▸ trivial) (by rw [hphase]; nofun)
  | pausing wake => exact h.work_of_free (hphase ▸ trivial) (by rw [hphase]; nofun)
  | stalled => exact h.work_of_free (hphase ▸ trivial) (by rw [hphase]; nofun)
  | stopped => exact h.work_of_free (hphase ▸ trivial) (by rw [hphase]; nofun)

/-- What happens to a worker, around it and on the way to the peer keeps the relay orderly too. -/
theorem moves {next : Relay} (hmoves : relay.Moves next) : Orderly queue schema original next := by
  cases hmoves with
  | work => exact h.work
  | arrive passage hpassage => exact h.arrive hpassage
  | dismiss => exact h.setTurn rfl h.inHand
  | wake =>
    refine h.setTurn ?_ ?_
    · unfold Worker.wake
      split <;> rfl
    · unfold Worker.wake
      split
      case isTrue => exact inHand_of_free trivial
      case isFalse => exact h.inHand
  | respawn facilities sink circuit gate => exact h.hold.setTurn rfl (inHand_of_free trivial)
  | handOver owner queues facilities sink circuit gate hqueues hmerged =>
    exact h.hold.handOver hqueues rfl hmerged trivial
  | elsewhere world facilities hspares => exact h.goOn hspares (inHand_of_spares hspares h.inHand)

theorem leads {next : Relay} (hleads : relay.Leads next) : Orderly queue schema original next := by
  induction hleads with
  | refl => exact h
  | tail _ hmoves ih => exact ih.moves hmoves

end Runs

/-- A relay that is opened on a queue is orderly. -/
theorem opening (turn : Turn) {queue : Queue} (hfree : turn.worker.phase.Free)
    (hreach : turn.world.database.queues.Reachable)
    (hqueue : turn.world.database.queues.get? turn.worker.key = some queue) :
    Orderly queue turn.world.schema turn.world.directory (.opening turn) := by
  obtain ⟨offset, hoffset, rfl⟩ := get?_eq_some_iff.mp hqueue
  have wf := hreach.wellFormed
  have hreached {file : FileRef} {start : Nat} (hthere : (Relay.opening turn).Reached file start) :
      (⟨turn.worker.key, turn.world.database.queues.filesOf turn.worker.key, offset⟩ :
        Queue).firstOffset file = start := by
    obtain ⟨hhead, hstart⟩ :=
      Scene.position?_eq_some_iff.mp (hthere.resolve_left List.not_mem_nil)
    calc Queue.firstOffset ⟨turn.worker.key, turn.world.database.queues.filesOf turn.worker.key, offset⟩ file
        = offset := if_pos hhead
      _ = start := Option.some.inj (hoffset.symm.trans hstart)
  constructor
  case fixed => rfl
  case wellFormed => exact wf
  case fresh =>
    intro start hat hempty
    apply hreach.fresh turn.worker.key start hat
    intro seq
    rw [← Bool.not_eq_true, lists_iff_mem_filesOf]
    rintro ⟨file, hfile, -⟩
    have hfile : file ∈ turn.scene.listed := hfile
    rw [show turn.scene.listed = [] from hempty] at hfile
    cases hfile
  case listed => exact ⟨[], (List.append_nil _).symm⟩
  case ascending => exact wf.pairwise_filesOf_lt turn.worker.key
  case written => exact fun _ _ ↦ Stays.continues rfl
  case reached =>
    intro file start content hthere _
    exact ⟨[], by rw [hreached hthere]; exact .nil start⟩
  case spent => exact fun _ hnone ↦ absurd hnone List.not_mem_nil
  case settled =>
    rintro place ⟨start, hthere, hlt⟩ ⟨-, entry, kept, ⟨content, -, hfound⟩, -⟩
    obtain ⟨before, -, hbefore, -⟩ := hfound
    have hle := hbefore.le
    rw [hreached hthere] at hle
    exact absurd hlt (Nat.not_lt.mpr hle)
  case drawn => exact fun _ hnone ↦ absurd hnone List.not_mem_nil
  case arrived => exact fun _ hnone ↦ absurd hnone List.not_mem_nil
  case acknowledged => exact fun _ hnone ↦ absurd hnone List.not_mem_nil
  case inOrder => exact fun _ _ _ _ _ ↦ Nat.le_refl 0
  case inHand => exact inHand_of_free hfree

end Orderly

end Relay

end LogShipping.Worker
