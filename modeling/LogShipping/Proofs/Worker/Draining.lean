import LogShipping.Proofs.Worker.Attempts
import LogShipping.Proofs.Worker.Lengths
import LogShipping.Proofs.Worker.RelaySteps
import LogShipping.Proofs.Worker.Spinning

/-!
# Recovered queues are drained

The files of a recovered queue are all closed. A worker that nobody disturbs ships what they hold, takes each of
them off when it has come to its end, drops the queue when no file is left, and stops. Every step is one of a few
kinds, and with each but the attempts to ship a passage less lies ahead of the worker: octets, files, or what it
does from one passage to the next.
-/

namespace LogShipping

open Log QueueTables

namespace Worker

/-! ## What the files hold -/

/-- The entries that some files hold, the first one from an offset on. -/
def recorded (directory : Directory) : List FileRef → (offset : Nat) → List Entry
  | [], _ => []
  | file :: later, offset =>
    (content? directory file).elim [] (fun content ↦ (decoding (content.drop offset)).entries) ++
      recorded directory later 0

theorem recorded_congr {before after : Directory} {files : List FileRef}
    (hstays : ∀ file ∈ files, Stays before after file) (offset : Nat) :
    recorded after files offset = recorded before files offset := by
  induction files generalizing offset with
  | nil => rfl
  | cons file later ih =>
    have hfile : content? after file = content? before file := hstays file List.mem_cons_self
    rw [recorded, recorded, hfile, ih fun other hother ↦ hstays other (List.mem_cons_of_mem _ hother)]

/-- A queue without files has passed what its files held. -/
theorem Passed.eq_recorded {directory : Directory} {start : Nat} {finished : List FileRef} {entries : List Entry}
    (h : Passed directory start finished none entries) : entries = recorded directory finished start := by
  generalize hposition : (none : Option (FileRef × Nat)) = position at h
  induction h with
  | nothing => rfl
  | within _ => cases hposition
  | @across start stop file finished position read rest hholds hends _ ih =>
    obtain ⟨content, hcontent, -, -, hrecords⟩ := hholds
    obtain ⟨other, hother, rfl⟩ := hends
    obtain rfl : content = other := Option.some.inj (hcontent.symm.trans hother)
    rw [List.take_length] at hrecords
    rw [recorded, hcontent, Option.elim_some, decoding_of_records hrecords, ← ih hposition]

/-! ## Phases on the way -/

end Worker

/-- The passage leads on, and its file is to be taken off behind it if there was nothing more to read. -/
structure Passage.Onward (passage : Passage) : Prop where
  forward : passage.start < passage.stop
  whole : passage.finishable = passage.exhausted

/-- Behind such a passage the worker goes on at once, or takes the file off. -/
theorem Passage.Onward.next_cases {passage : Passage} (h : passage.Onward) :
    passage.next = .ready ∨ passage.next = .finishing passage.file := by
  unfold Passage.next
  rw [h.whole]
  cases passage.exhausted with
  | true => exact .inr rfl
  | false => exact .inl rfl

theorem Passage.Onward.afterShipping_eq {passage : Passage} (h : passage.Onward) :
    passage.afterShipping = .advancing passage := if_pos (decide_eq_true h.forward)

namespace Worker

namespace Phase

/-- How far a worker is from the end of a pass. -/
def distance : Phase → Nat
  | ready => 6
  | loading => 5
  | reading .. => 4
  | shipping _ | awaitingTokens .. | awaitingPlace _ | calling _ | inFlight .. | backingOff .. => 3
  | advancing _ => 2
  | finishing _ | dropping => 1
  | gated | idle | pausing _ | stalled | stopped => 0

/-- The entries that were acknowledged and are not stored yet. -/
def unstored : Phase → List Entry
  | advancing passage => passage.shipment.entries
  | _ => []

/-- The worker neither waits for something new or for a while, nor is its log unreadable. -/
def Busy : Phase → Prop
  | gated | idle | pausing _ | stalled => False
  | _ => True

/-- The worker has got ready for what comes next. What it is to store holds no entries. -/
def Prepared : Phase → Prop
  | loading | reading .. | dropping | finishing _ => True
  | shipping passage => passage.Onward
  | advancing passage => passage.Onward ∧ passage.shipment.entries = []
  | _ => False

section Prepared

variable {phase : Phase} (h : phase.Prepared)

include h

theorem Prepared.busy : phase.Busy := by
  cases phase <;> trivial

theorem Prepared.ne_stopped : phase ≠ .stopped := by
  rintro rfl
  exact h.elim

theorem Prepared.onward {passage : Passage} (hhand : phase.hand? = some passage) : passage.Onward := by
  cases phase with
  | shipping other => cases hhand; exact h
  | advancing other => cases hhand; exact h.1
  | awaitingTokens | awaitingPlace | calling | inFlight | backingOff => exact h.elim
  | _ => cases hhand

theorem Prepared.unstored_eq : phase.unstored = [] := by
  cases phase with
  | advancing passage => exact h.2
  | _ => rfl

end Prepared

theorem distance_of_passage {phase : Phase} {passage : Passage} (h : phase.passage? = some passage) :
    phase.distance = 3 := by
  cases phase with
  | shipping | awaitingTokens | awaitingPlace | calling | inFlight | backingOff => rfl
  | _ => cases h

theorem unstored_of_passage {phase : Phase} {passage : Passage} (h : phase.passage? = some passage) :
    phase.unstored = [] := by
  cases phase with
  | advancing => cases h
  | _ => rfl

end Phase

namespace Turn

variable {turn after : Turn} {passage : Passage}

/-- The worker is on its way through its queue, or has dropped it and stopped. -/
structure Bound (turn : Turn) : Prop where
  busy : turn.worker.phase.Busy
  hand : ∀ passage, turn.worker.phase.hand? = some passage → passage.Onward
  present : turn.worker.phase ≠ .stopped → ∃ queue, turn.scene.queue? = some queue
  gone : turn.worker.phase = .stopped → turn.worker.state = .stopped ∧ turn.scene.queue? = none

/-- What still lies ahead of the worker. -/
def ahead (turn : Turn) : Nat := 7 * turn.scene.left + turn.worker.phase.distance

/-- What the next step comes to. -/
inductive Drains (turn : Turn) : Prop
  /-- The worker gets ready to ship, or to take off a file or the queue. -/
  | prepares (hscene : (step turn).scene = turn.scene)
      (hbefore : turn.worker.phase = .ready ∨ turn.worker.phase = .loading ∨
        ∃ file offset hasNext, turn.worker.phase = .reading file offset hasNext)
      (hafter : (step turn).worker.phase.Prepared)
      (hnearer : (step turn).worker.phase.distance < turn.worker.phase.distance)
  /-- It tries to ship a passage. -/
  | tries {passage : Passage} (hscene : (step turn).scene = turn.scene)
      (hbefore : turn.worker.phase.passage? = some passage)
      (hafter : (step turn).worker.phase.passage? = some passage) (hnone : turn.acknowledges? = none)
  /-- The passage was acknowledged. -/
  | arrives {passage : Passage} (hscene : (step turn).scene = turn.scene)
      (hbefore : turn.worker.phase.passage? = some passage)
      (hafter : (step turn).worker.phase = .advancing passage)
      (hacknowledges : turn.acknowledges? = some passage.shipment)
  /-- The position is moved behind it. -/
  | moves {passage : Passage} (hbefore : turn.worker.phase = .advancing passage)
      (hstores : turn.stores? = some passage.shipment)
      (hafter : (step turn).worker.phase = .ready ∨ ∃ file, (step turn).worker.phase = .finishing file)
      (hpresent : ∃ queue, (step turn).scene.queue? = some queue)
      (hleft : (step turn).scene.left < turn.scene.left)
  /-- A file is taken off. -/
  | finishes {file : FileRef} (hbefore : turn.worker.phase = .finishing file)
      (hafter : (step turn).worker.phase = .ready)
      (hpresent : ∃ queue, (step turn).scene.queue? = some queue)
      (hleft : (step turn).scene.left < turn.scene.left)
  /-- The queue is dropped. -/
  | drops (hbefore : turn.worker.phase = .dropping) (hafter : (step turn).worker.phase = .stopped)
      (hstate : (step turn).worker.state = .stopped) (hgone : (step turn).scene.queue? = none)
  | rests (hbefore : turn.worker.phase = .stopped) (hafter : step turn = turn)

/-! ## Each step -/

/-- A pass over whole records does not fail. -/
theorem take_of_records {content : Bytes} {start : Nat} {entries : List Entry} {limits : Batch.Limits}
    (schema : Schema) (hadmits : limits.Admits) (hstart : start ≤ content.length)
    (hfits : content.length + Reader.block ≤ Reader.maxOffset) (hrecords : Records (content.drop start) entries)
    (path : String) : ∃ batch, (Batch.take (.file content) schema limits (.start path start none)).1 = .ok batch := by
  rcases htake : Batch.take (.file content) schema limits (.start path start none) with ⟨error | batch, after⟩
  case ok => exact ⟨batch, rfl⟩
  case error =>
    have hreached : ¬limits.Reached schema [] :=
      not_or.mpr ⟨Nat.not_le.mpr hadmits.2, Nat.not_le.mpr hadmits.1⟩
    rw [Batch.take_eq_error_iff hreached, nextFrom_start _ hstart hfits] at htake
    have hupcoming : Batch.upcoming content (.start path start none) =
        ⟨entries, (content.drop start).length, .incomplete⟩ := decoding_of_records hrecords
    rcases @Batch.next_upcoming content (.start path start none) rfl with
      ⟨_, hnext, -⟩ | ⟨_, _, -, -, -, -, hhalt⟩ | ⟨_, _, hnext, -⟩
    · cases htake.symm.trans hnext
    · exact absurd (congrArg Decoding.halt hupcoming) hhalt
    · cases htake.symm.trans hnext

/-- Of a closed file of whole records the worker gets a passage, unless it has come to the end. -/
theorem step_reading_of_records {file : FileRef} {offset : Nat} {hasNext : Bool} {content : Bytes}
    {entries : List Entry}
    (hphase : turn.worker.phase = .reading file offset hasNext)
    (hrecovered : turn.worker.key.isRecovered = true) (hadmits : turn.limits.Admits)
    (hcontent : content? turn.world.directory file = some content) (hoffset : offset ≤ content.length)
    (hrecords : Records (content.drop offset) entries)
    (hfits : content.length + Reader.block ≤ Reader.maxOffset) :
    (step turn).scene = turn.scene ∧ (step turn).worker.phase.Prepared ∧ (step turn).worker.phase.distance < 4 := by
  have hclosed : turn.activeLength? file = none := by rw [activeLength?, if_pos hrecovered]
  obtain ⟨batch, htake⟩ := take_of_records turn.world.schema hadmits hoffset hfits hrecords file.path
  have hread : turn.read file offset hasNext = turn.takeBatch file true hasNext batch := by
    rw [read_of_closed hcontent hclosed hoffset hfits, htake]
  have hwhole : (turn.passageOf file true hasNext batch).finishable = batch.exhausted := by
    rw [passageOf, hrecovered, Bool.or_true, Bool.and_true, Bool.and_true]
  rw [Turn.step_reading hphase]
  refine ⟨scene_read turn file offset hasNext, ?_⟩
  rw [hread, phase_takeBatch]
  by_cases hempty : batch.isEmpty = true
  case neg =>
    have hforward := Batch.lt_of_entries_ne_nil rfl htake fun hnone ↦ hempty (List.isEmpty_iff.mpr hnone)
    rw [if_neg hempty]
    exact ⟨⟨hforward, hwhole⟩, Nat.lt_succ_self 3⟩
  case pos =>
    rw [if_pos hempty]
    rcases Batch.exhausted_or_lt hadmits rfl htake with hexhausted | hforward
    · unfold Passage.afterShipping
      split
      case isTrue hforward =>
        exact ⟨⟨⟨of_decide_eq_true hforward, hwhole⟩, List.isEmpty_iff.mp hempty⟩, (by decide : 2 < 4)⟩
      case isFalse =>
        rw [Passage.next, hwhole, if_pos hexhausted]
        exact ⟨trivial, (by decide : 1 < 4)⟩
    · rw [Passage.Onward.afterShipping_eq ⟨hforward, hwhole⟩]
      exact ⟨⟨⟨hforward, hwhole⟩, List.isEmpty_iff.mp hempty⟩, (by decide : 2 < 4)⟩

section Steps

variable (h : turn.Able)

include h

theorem Able.step_ready (hphase : turn.worker.phase = .ready) :
    step turn = (turn.goTo .loading).become .reading := by
  unfold step
  rw [hphase]
  dsimp only
  rw [checkGate, h.stays_on, if_neg Bool.false_ne_true, if_pos h.opened]

theorem Able.step_loading (hphase : turn.worker.phase = .loading)
    (hrecovered : turn.worker.key.isRecovered = true) {queue : Queue} (hqueue : turn.scene.queue? = some queue) :
    (step turn).scene = turn.scene ∧ ((step turn).worker.phase = .dropping ∨
      ∃ file offset hasNext, (step turn).worker.phase = .reading file offset hasNext) := by
  have hquery : turn.world.database.query (·.get? turn.worker.key) = .ok (some queue) := by
    rw [Database.query, if_pos h.reachable]
    exact congrArg Except.ok hqueue
  rw [Turn.step_loading hphase, load]
  dsimp only
  rw [hquery]
  dsimp only
  split
  case h_1 =>
    rw [if_pos hrecovered]
    exact ⟨rfl, .inl rfl⟩
  case h_2 file _ => exact ⟨rfl, .inr ⟨file, _, _, rfl⟩⟩

theorem Able.step_advancing (hphase : turn.worker.phase = .advancing passage)
    (hposition : turn.scene.position? = some (passage.file, passage.start))
    (hspans : passage.Spans turn.scene.directory passage.file passage.start) :
    turn.stores? = some passage.shipment ∧ (step turn).worker.phase = passage.next ∧
      (∃ queue, (step turn).scene.queue? = some queue) ∧ (step turn).scene.left < turn.scene.left := by
  obtain ⟨hhead, hoffset⟩ := Scene.position?_eq_some_iff.mp hposition
  have hseq : turn.tables.headSeq? turn.worker.key = some passage.file.seq := by
    rw [headSeq?, show (turn.tables.filesOf turn.worker.key).head? = some passage.file from hhead]
    rfl
  have hok : turn.tables.advance turn.worker.key passage.start passage.target =
      .ok (turn.tables.setOffset turn.worker.key passage.stop) :=
    advance_eq_ok_iff.mpr ⟨hseq, passage.start, hoffset, .inr ⟨hspans.forward, rfl, rfl⟩⟩
  rw [Turn.step_advancing hphase]
  rcases advance_cases hphase with ⟨queues, hadvance, hstores, hscene, hnext⟩ | ⟨-, -, hrefused⟩
  · obtain ⟨_, -, -, hstands⟩ := queue_of_advance hadvance
    exact ⟨hstores, hnext, ⟨_, hscene ▸ hstands⟩, hscene ▸ left_advance_lt hposition hspans hadvance⟩
  · obtain ⟨error, hrefused⟩ := hrefused h.reachable
    cases hok.symm.trans hrefused

theorem Able.step_finishing (wf : turn.tables.WellFormed) {file : FileRef} {offset : Nat}
    (hphase : turn.worker.phase = .finishing file) (hposition : turn.scene.position? = some (file, offset)) :
    (step turn).worker.phase = .ready ∧ (∃ queue, (step turn).scene.queue? = some queue) ∧
      (step turn).scene.left < turn.scene.left := by
  obtain ⟨hhead, hoffset⟩ := Scene.position?_eq_some_iff.mp hposition
  have hseq : turn.tables.headSeq? turn.worker.key = some file.seq := by
    rw [headSeq?, show (turn.tables.filesOf turn.worker.key).head? = some file from hhead]
    rfl
  have hok := finish_eq_ok_iff.mpr ⟨Option.isSome_iff_exists.mpr ⟨offset, hoffset⟩, hseq, rfl⟩
  rw [Turn.step_finishing hphase]
  rcases finish_cases hphase with ⟨queues, hfinish, -, hscene, hready⟩ | ⟨-, -, hrefused⟩
  · obtain ⟨_, later, _, -, -, hfinished⟩ := get?_of_finish wf hfinish
    have hstands : (turn.scene.withQueues queues).queue? = some ⟨turn.worker.key, later, 0⟩ := hfinished
    exact ⟨hready, ⟨_, hscene ▸ hstands⟩, hscene ▸ left_finish_lt wf hfinish⟩
  · obtain ⟨error, hrefused⟩ := hrefused h.reachable
    cases hok.symm.trans hrefused

theorem Able.step_dropping (hphase : turn.worker.phase = .dropping) :
    (step turn).worker.phase = .stopped ∧ (step turn).worker.state = .stopped ∧
      (step turn).scene.queue? = none := by
  rw [Turn.step_dropping hphase, drop]
  rcases turn.world.dropQueue_cases turn.worker.key with ⟨feed, hdrop⟩ | ⟨error, -, hdown⟩
  · rw [hdrop]
    refine ⟨rfl, rfl, ?_⟩
    dsimp only
    rw [scene_stop]
    show (turn.tables.remove turn.worker.key).get? turn.worker.key = none
    rw [get?, offset?_remove, if_pos rfl]
    rfl
  · cases hdown.symm.trans h.reachable

end Steps

end Turn

/-- The next step of a worker that drains its queue. -/
theorem Faithful.drains {files : List FileRef} {start : Nat} {schema : Schema} {journal : Journal}
    (h : Faithful files start schema journal) (hbound : journal.turn.Bound) (hable : journal.turn.Able)
    (hrecovered : journal.turn.worker.key.isRecovered = true) (hadmits : journal.turn.limits.Admits)
    (hfits : ∀ file ∈ journal.scene.listed, extent journal.scene.directory file + Reader.block ≤ Reader.maxOffset) :
    journal.turn.Drains := by
  have hinHand := h.inHand
  cases hphase : journal.turn.worker.phase with
  | gated | idle | pausing | stalled =>
    have hbusy := hbound.busy
    rw [hphase] at hbusy
    exact hbusy.elim
  | ready =>
    have hstep := hable.step_ready hphase
    exact .prepares (hstep ▸ rfl) (.inl hphase) (hstep ▸ trivial) (by rw [hstep, hphase]; exact Nat.lt_succ_self 5)
  | loading =>
    obtain ⟨queue, hqueue⟩ := hbound.present (by simp [hphase])
    obtain ⟨hscene, hdropping | ⟨file, offset, hasNext, hreading⟩⟩ :=
      hable.step_loading hphase hrecovered hqueue
    · exact .prepares hscene (.inr (.inl hphase)) (hdropping ▸ trivial) (by rw [hdropping, hphase]; decide)
    · exact .prepares hscene (.inr (.inl hphase)) (hreading ▸ trivial)
        (by rw [hreading, hphase]; exact Nat.lt_succ_self 4)
  | reading file offset hasNext =>
    rw [hphase] at hinHand
    obtain ⟨hhead, hoffset⟩ := Scene.position?_eq_some_iff.mp hinHand.1
    obtain ⟨content, entries, hcontent, hle, hrecords⟩ := (h.ledger.whole offset hoffset).1 file hhead
    have hlength : content.length + Reader.block ≤ Reader.maxOffset := by
      have hlimit := hfits file (List.mem_of_head? hhead)
      rwa [extent, hcontent] at hlimit
    obtain ⟨hscene, hprepared, hnearer⟩ :=
      Turn.step_reading_of_records hphase hrecovered hadmits hcontent hle hrecords hlength
    exact .prepares hscene (.inr (.inr ⟨_, _, _, hphase⟩)) hprepared (by rw [hphase]; exact hnearer)
  | dropping =>
    obtain ⟨hafter, hstate, hgone⟩ := hable.step_dropping hphase
    exact .drops hphase hafter hstate hgone
  | advancing passage =>
    rw [hphase] at hinHand
    obtain ⟨hfits, -⟩ := hinHand
    have honward : passage.Onward := hbound.hand passage (by rw [hphase]; rfl)
    obtain ⟨read, ⟨content, hcontent, -, hinside, -⟩, -⟩ := hfits.shipped
    have hextent : passage.stop ≤ extent journal.scene.directory passage.file := by
      rw [extent, hcontent]
      exact hinside
    obtain ⟨hstores, hafter, hthere, hleft⟩ :=
      hable.step_advancing hphase hfits.position ⟨rfl, rfl, honward.forward, hextent⟩
    exact .moves hphase hstores (hafter ▸ honward.next_cases.imp_right fun hnext ↦ ⟨_, hnext⟩) hthere hleft
  | finishing file =>
    rw [hphase] at hinHand
    obtain ⟨-, offset, hposition, -⟩ := hinHand
    obtain ⟨hafter, hthere, hleft⟩ := hable.step_finishing h.ledger.wellFormed hphase hposition
    exact .finishes hphase hafter hthere hleft
  | stopped => exact .rests hphase (by unfold step; rw [hphase])
  | shipping passage | awaitingTokens passage _ | awaitingPlace passage | calling passage
  | inFlight passage _ _ | backingOff passage _ =>
    have hpassage : journal.turn.worker.phase.passage? = some passage := by rw [hphase]; rfl
    have honward : passage.Onward := hbound.hand passage (Phase.hand?_of_passage hpassage)
    have hscene : (step journal.turn).scene = journal.turn.scene := by
      rcases Turn.step_of_passage hpassage with ⟨hscene, -⟩ | ⟨-, hscene, -⟩
      · exact hscene
      · exact hscene
    rcases hable.step_of_passage hpassage with ⟨hacknowledges, hafter⟩ | ⟨hnone, hafter, -⟩
    · exact .arrives hscene hpassage (hafter.trans honward.afterShipping_eq) hacknowledges
    · exact .tries hscene hpassage hafter hnone

/-! ## What the steps keep -/

/-- No file is lost between those taken off and those listed, and the files hold what they held. -/
structure Untouched (files : List FileRef) (original : Directory) (journal : Journal) : Prop where
  together : journal.finished ++ journal.scene.listed = files
  stays : ∀ file ∈ files, Stays original journal.scene.directory file

/-- All that was acknowledged is stored, but for what the worker has yet to store. -/
def Tallies (journal : Journal) : Prop :=
  journal.acknowledged.flatMap (·.entries) =
    journal.stored.flatMap (·.entries) ++ journal.turn.worker.phase.unstored

namespace Turn

variable {turn : Turn}

theorem acknowledges?_eq_none (h : turn.worker.phase.passage? = none) : turn.acknowledges? = none := by
  unfold acknowledges?
  cases hphase : turn.worker.phase with
  | calling | inFlight =>
    rw [hphase] at h
    cases h
  | _ => rfl

/-- A worker that has a passage to ship, or is to store one, has not stopped. -/
theorem ne_stopped_of_hand {passage : Passage} (h : turn.worker.phase.hand? = some passage) :
    turn.worker.phase ≠ .stopped := by
  intro hstopped
  rw [hstopped] at h
  cases h

/-- With a passage in hand before and after. -/
theorem Bound.of_hand (h : turn.Bound) {after : Turn} {passage : Passage} (hscene : after.scene = turn.scene)
    (hbefore : turn.worker.phase.hand? = some passage) (hafter : after.worker.phase.hand? = some passage) :
    after.Bound where
  busy := by
    cases hphase : after.worker.phase with
    | gated | idle | pausing | stalled =>
      rw [hphase] at hafter
      cases hafter
    | _ => trivial
  hand other hother := Option.some.inj (hafter.symm.trans hother) ▸ h.hand passage hbefore
  present _ := hscene ▸ h.present (ne_stopped_of_hand hbefore)
  gone hstopped := absurd hstopped (ne_stopped_of_hand hafter)

/-- On the way to the next passage, or to the next file. -/
theorem Bound.of_queue (hphase : turn.worker.phase = .ready ∨ ∃ file, turn.worker.phase = .finishing file)
    (hpresent : ∃ queue, turn.scene.queue? = some queue) : turn.Bound := by
  rcases hphase with hphase | ⟨file, hphase⟩
  all_goals
    constructor
    all_goals rw [hphase]
    · trivial
    · rintro passage ⟨⟩
    · exact fun _ ↦ hpresent
    · rintro ⟨⟩

namespace Drains

theorem bound (h : turn.Drains) (hbound : turn.Bound) : (step turn).Bound := by
  cases h with
  | prepares hscene hbefore hafter _ =>
    refine ⟨hafter.busy, fun _ ↦ hafter.onward, fun _ ↦ ?_, fun hstopped ↦ absurd hstopped hafter.ne_stopped⟩
    rw [hscene]
    apply hbound.present
    rcases hbefore with hphase | hphase | ⟨_, _, _, hphase⟩ <;> simp [hphase]
  | tries hscene hbefore hafter _ =>
    exact hbound.of_hand hscene (Phase.hand?_of_passage hbefore) (Phase.hand?_of_passage hafter)
  | arrives hscene hbefore hafter _ =>
    exact hbound.of_hand hscene (Phase.hand?_of_passage hbefore) (by rw [hafter]; rfl)
  | moves _ _ hafter hpresent _ => exact .of_queue hafter hpresent
  | finishes _ hready hpresent _ => exact .of_queue (.inl hready) hpresent
  | drops _ hstopped hstate hgone =>
    constructor
    · rw [hstopped]; trivial
    · rw [hstopped]; rintro passage ⟨⟩
    · exact fun hnot ↦ absurd hstopped hnot
    · exact fun _ ↦ ⟨hstate, hgone⟩
  | rests _ hafter => exact hafter.symm ▸ hbound

/-- Less lies ahead behind every step but an attempt to ship a passage. -/
theorem ahead_lt (h : turn.Drains) (hnone : turn.worker.phase.passage? = none)
    (hworking : turn.worker.phase ≠ .stopped) (hleft : (step turn).scene.left ≤ turn.scene.left) :
    (step turn).ahead < turn.ahead := by
  unfold ahead
  cases h with
  | prepares hscene _ _ hnearer =>
    rw [hscene]
    omega
  | tries _ hbefore _ _ | arrives _ hbefore _ _ => cases hnone.symm.trans hbefore
  | moves hbefore _ hafter _ hless =>
    have hnear : (step turn).worker.phase.distance ≤ 6 := by
      rcases hafter with hready | ⟨file, hfinishing⟩
      · rw [hready]; exact Nat.le_refl 6
      · rw [hfinishing]; exact (by decide : 1 ≤ 6)
    have htwo : turn.worker.phase.distance = 2 := by rw [hbefore]; rfl
    omega
  | finishes hbefore hafter _ hless =>
    have hsix : (step turn).worker.phase.distance = 6 := by rw [hafter]; rfl
    have hone : turn.worker.phase.distance = 1 := by rw [hbefore]; rfl
    omega
  | drops hbefore hafter _ _ =>
    have hzero : (step turn).worker.phase.distance = 0 := by rw [hafter]; rfl
    have hone : turn.worker.phase.distance = 1 := by rw [hbefore]; rfl
    omega
  | rests hstopped _ => exact absurd hstopped hworking

end Drains

end Turn

theorem Tallies.work {journal : Journal} (htallies : Tallies journal) (h : journal.turn.Drains) :
    Tallies journal.work := by
  unfold Tallies at htallies ⊢
  show (journal.acknowledged ++ journal.turn.acknowledges?.toList).flatMap (·.entries) =
    (journal.stored ++ journal.turn.stores?.toList).flatMap (·.entries) ++ (step journal.turn).worker.phase.unstored
  rw [List.flatMap_append, htallies, List.flatMap_append]
  have hquiet (hnone : journal.turn.worker.phase.passage? = none) (hquiet : journal.turn.worker.phase.Quiet)
      (hunstored : (step journal.turn).worker.phase.unstored = journal.turn.worker.phase.unstored) :
      journal.stored.flatMap (·.entries) ++ journal.turn.worker.phase.unstored ++
          journal.turn.acknowledges?.toList.flatMap (·.entries) =
        journal.stored.flatMap (·.entries) ++ journal.turn.stores?.toList.flatMap (·.entries) ++
          (step journal.turn).worker.phase.unstored := by
    rw [Turn.acknowledges?_eq_none hnone, (journal.turn.quiet hquiet).1, hunstored]
    simp
  cases h with
  | prepares _ hbefore hafter _ =>
    rcases hbefore with hphase | hphase | ⟨_, _, _, hphase⟩
    all_goals
      apply hquiet <;> rw [hphase]
      · rfl
      · trivial
      · exact hafter.unstored_eq
  | tries _ hbefore hafter hnone =>
    rw [hnone, (journal.turn.quiet (Phase.quiet_of_passage hbefore)).1, Phase.unstored_of_passage hbefore,
      Phase.unstored_of_passage hafter]
    rfl
  | @arrives passage _ hbefore hafter hacknowledges =>
    rw [hacknowledges, (journal.turn.quiet (Phase.quiet_of_passage hbefore)).1, hafter,
      Phase.unstored_of_passage hbefore]
    simp [Phase.unstored]
  | @moves passage hbefore hstores hafter _ _ =>
    have hnone : (step journal.turn).worker.phase.unstored = [] := by
      rcases hafter with hready | ⟨file, hfinishing⟩
      · rw [hready]; rfl
      · rw [hfinishing]; rfl
    rw [Turn.acknowledges?_eq_none (by rw [hbefore]; rfl), hstores, hnone, hbefore]
    simp [Phase.unstored]
  | finishes hbefore hafter _ _ =>
    have hstores : journal.turn.stores? = none := by rw [Turn.stores?, hbefore]
    rw [Turn.acknowledges?_eq_none (by rw [hbefore]; rfl), hstores, hbefore, hafter]
    rfl
  | drops hbefore hafter _ _ =>
    apply hquiet <;> rw [hbefore]
    · rfl
    · trivial
    · rw [hafter]; rfl
  | rests hstopped hafter =>
    apply hquiet
    · rw [hstopped]; rfl
    · rw [hstopped]; trivial
    · rw [hafter]

/-- A step takes a file off the queue only to put it down as finished. -/
theorem Faithful.together_work {files : List FileRef} {start : Nat} {schema : Schema} {journal : Journal}
    (h : Faithful files start schema journal) :
    journal.work.finished ++ journal.work.scene.listed = journal.finished ++ journal.scene.listed := by
  have hinHand := h.inHand
  have hwf := h.ledger.wellFormed
  show journal.finished ++ journal.turn.finishes?.toList ++ (step journal.turn).scene.listed = _
  rcases journal.turn.scene_step_cases with ⟨hscene, hnone⟩ | ⟨passage, queues, hphase, hok, hscene, hnone⟩ |
    ⟨file, queues, hphase, hok, hscene, hfinishes⟩ | ⟨hphase, hscene⟩
  · rw [hnone, hscene, Option.toList_none, List.append_nil]
    rfl
  · rw [hphase] at hinHand
    obtain ⟨hlisted, -⟩ := Scene.withQueues_advance hinHand.1.position hok
    rw [hnone, hscene, Option.toList_none, List.append_nil]
    exact congrArg (journal.finished ++ ·) hlisted
  · rw [hphase] at hinHand
    obtain ⟨-, offset, hposition, -⟩ := hinHand
    obtain ⟨hlisted, -⟩ := Scene.withQueues_finish hwf hposition hok
    rw [hfinishes, hscene, hlisted, Option.toList_some, List.append_assoc]
    rfl
  · rw [hphase] at hinHand
    obtain ⟨hlisted, -⟩ := Scene.withQueues_remove hwf
    have hnone : journal.turn.finishes? = none := by rw [Turn.finishes?, hphase]
    rw [hnone, hscene, Option.toList_none, List.append_nil, hinHand.2]
    exact congrArg (journal.finished ++ ·) hlisted

end Worker

end LogShipping
