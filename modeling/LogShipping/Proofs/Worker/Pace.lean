import LogShipping.Proofs.Batch.Passes
import LogShipping.Proofs.Worker.Holdings
import LogShipping.Proofs.Worker.Journal

/-!
# What a pass over a file comes to

A pass begins with the loading of the queue. A worker that has come to its end waits, or stops, or goes on at
once: it looks at the gate, and the next pass begins. Here is told from which steps it goes on at once, and
what it then has done. It has moved the queue's position, or taken a file off, or found the gate shut, and
there is one more case, that it has read nothing of a file that may hold anything. For this the limits of a
batch must admit no entry at all.
-/

namespace LogShipping

/-! ## Limits of a pass -/

/-- A chain with a record in it leads on. -/
theorem Log.Chain.lt {content : Bytes} {start stop : Nat} {entry : Entry} {entries : List Entry}
    (h : Chain content start stop (entry :: entries)) : start < stop := by
  cases h with
  | @cons _ _ consumed _ _ _ hframe _ rest =>
    have hlater := (Frame.consumed_of_decode hframe).1
    have hbehind := rest.le
    rw [Frame.headerSize] at hlater
    omega

namespace Batch

open Log (Reader)

/-- A pass may read an entry. -/
def Limits.Admits (limits : Limits) : Prop := 0 < limits.size ∧ 0 < limits.count

instance (limits : Limits) : Decidable limits.Admits := inferInstanceAs (Decidable (_ ∧ _))

variable {source : Directory.Source} {content : Bytes} {schema : Schema} {limits : Limits} {reader : Reader}
  {batch : Batch}

/-- A pass that may not read an entry is not told what there is to read either. -/
theorem take_of_not_admits (h : ¬limits.Admits) (source : Directory.Source) (schema : Schema)
    (reader : Reader) : (take source schema limits reader).1 =
      .ok ⟨[], 0, 0, reader.position, reader.position, false, reader.truncated⟩ := by
  have hgather (batch : Batch) :
      gather source schema limits limits.count batch reader = (.ok batch, reader) := by
    cases hcount : limits.count with
    | zero => rfl
    | succ turns =>
      have hsize : limits.size ≤ batch.heapSize := by
        rw [Limits.Admits, hcount] at h
        omega
      rw [gather, if_pos hsize]
  unfold take
  dsimp only
  rw [hgather]

/-- A pass that may read an entry comes to the end of what can be read, or gets on. -/
theorem exhausted_or_lt (hadmits : limits.Admits) (hcursor : reader.cursor = reader.position)
    (h : (take source schema limits reader).1 = .ok batch) :
    batch.exhausted = true ∨ batch.start < batch.stop := by
  obtain ⟨hsize, hcount⟩ := hadmits
  obtain ⟨turns, hturns⟩ := Nat.exists_eq_add_one_of_ne_zero (Nat.ne_of_gt hcount)
  unfold take at h
  dsimp only at h
  rw [hturns, gather, if_neg (Nat.not_le.mpr hsize)] at h
  rcases hnext : reader.nextFrom source with ⟨error | _ | entry, next⟩
  case error =>
    rw [hnext] at h
    cases h
  case ok.none =>
    rw [hnext] at h
    cases h
    exact .inl rfl
  case ok.some =>
    rw [hnext] at h
    dsimp only at h
    split at h
    case h_2 => cases h
    case h_1 result after hgather =>
      cases source with
      | folder =>
        unfold Reader.nextFrom at hnext
        split at hnext <;> cases hnext
      | file content =>
        rcases @Reader.nextFrom_cases content reader hcursor with
          ⟨_, _, hother, -⟩ | ⟨_, hother, -⟩ | ⟨_, consumed, hother, hrecord⟩
        · cases hnext.symm.trans hother
        · cases hnext.symm.trans hother
        · cases hnext.symm.trans hother
          obtain ⟨read, hread, -, hstart, -⟩ := gather_chain turns rfl hgather
          rw [add_start] at hstart
          cases h
          exact .inr (hstart ▸ Nat.lt_of_lt_of_le hrecord.lt hread.le)

/-- A batch that holds something has got on. -/
theorem lt_of_entries_ne_nil (hcursor : reader.cursor = reader.position)
    (h : (take (.file content) schema limits reader).1 = .ok batch) (hentries : batch.entries ≠ []) :
    batch.start < batch.stop := by
  obtain ⟨-, read, hread, hkept, -⟩ := take_chain hcursor h
  cases read with
  | nil => exact absurd hkept hentries
  | cons entry read => exact hread.lt

/-- A batch that has got on ends within the file. -/
theorem stop_le_length (hcursor : reader.cursor = reader.position)
    (h : (take (.file content) schema limits reader).1 = .ok batch) (hlt : batch.start < batch.stop) :
    batch.stop ≤ content.length := by
  obtain ⟨-, read, hread, -⟩ := take_chain hcursor h
  have hinside := hread.stop_le
  omega

end Batch

/-! ## Passes -/

/-- How many octets a file holds. -/
def Log.extent (directory : Directory) (file : FileRef) : Nat :=
  (content? directory file).elim 0 List.length

/-- The passage leads on from an offset of a file, and ends within the file. -/
structure Passage.Spans (directory : Directory) (file : FileRef) (offset : Nat) (passage : Passage) : Prop where
  file_eq : passage.file = file
  start_eq : passage.start = offset
  forward : passage.start < passage.stop
  inside : passage.stop ≤ Log.extent directory file

namespace Worker

open Log

namespace Phase

/-- The worker is in the midst of a pass. -/
def amid : Phase → Bool
  | loading | reading .. | dropping | shipping _ | awaitingTokens .. | awaitingPlace _ | calling _ | inFlight ..
  | backingOff .. | advancing _ | finishing _ => true
  | ready | gated | idle | pausing _ | stalled | stopped => false

/-- The passage that the worker has in hand: it is about to be shipped, or the queue's position to be moved
behind it. -/
def hand? : Phase → Option Passage
  | advancing passage => some passage
  | phase => phase.passage?

theorem hand?_of_passage {phase : Phase} {passage : Passage} (h : phase.passage? = some passage) :
    phase.hand? = some passage := by
  cases phase <;> first | exact h | cases h

/-- The worker has nothing in hand, and is not about to read. -/
def Light : Phase → Prop
  | ready | gated | loading | dropping | finishing _ | idle | pausing _ | stalled | stopped => True
  | _ => False

theorem light_of_free {phase : Phase} (h : phase.Free) : phase.Light := by
  cases phase <;> first | exact h | exact h.elim

theorem Light.hand?_eq_none {phase : Phase} (h : phase.Light) : phase.hand? = none := by
  cases phase <;> first | rfl | exact h.elim

end Phase

section Ends

variable (passage : Passage)

theorem light_next : passage.next.Light := by
  unfold Passage.next
  split
  case isTrue => trivial
  case isFalse => split <;> trivial

/-- A passage stays in hand behind its shipping if it leads on. -/
theorem afterShipping_cases :
    passage.afterShipping.Light ∨ (passage.start < passage.stop ∧ passage.afterShipping.hand? = some passage) := by
  unfold Passage.afterShipping
  split
  case isTrue hforward => exact .inr ⟨of_decide_eq_true hforward, rfl⟩
  case isFalse => exact .inl (light_next passage)

/-- The worker goes on at once behind a passage if there was more to read. -/
theorem next_eq_ready_iff : passage.next = .ready ↔ passage.finishable = false ∧ passage.exhausted = false := by
  unfold Passage.next
  cases passage.finishable <;> cases passage.exhausted <;> simp

theorem afterShipping_eq_ready_iff :
    passage.afterShipping = .ready ↔ passage.stop ≤ passage.start ∧ passage.next = .ready := by
  unfold Passage.afterShipping
  split
  case isTrue hforward =>
    have hlt : passage.start < passage.stop := of_decide_eq_true hforward
    exact iff_of_false nofun fun h ↦ Nat.not_le.mpr hlt h.1
  case isFalse hforward =>
    rw [Passage.madeProgress, decide_eq_true_eq, Nat.not_lt] at hforward
    exact (and_iff_right hforward).symm

end Ends

namespace Turn

variable {turn : Turn} {passage : Passage} {file : FileRef} {offset : Nat} {hasNext : Bool}

/-- The step ends a pass, and the worker goes on at once. -/
def Continues (turn : Turn) : Prop := turn.worker.phase.amid = true ∧ (step turn).worker.phase = .ready

instance (turn : Turn) : Decidable turn.Continues := inferInstanceAs (Decidable (_ ∧ _))

/-! ## On the way to a shipment's end -/

/-- The passage is still to be shipped, or nothing is left to be shipped of it, or the worker is gone. -/
def Onward (passage : Passage) (after : Turn) : Prop :=
  after.worker.phase.passage? = some passage ∨ after.worker.phase = passage.afterShipping ∨
    after.worker.phase = .stopped

theorem onward_stop (turn : Turn) (passage : Passage) : Onward passage turn.stop := .inr (.inr rfl)

theorem onward_takeToken {count : Nat} (h : turn.worker.phase = .awaitingTokens passage count) :
    Onward passage (turn.takeToken passage count) := by
  cases count with
  | zero => exact .inl rfl
  | succ count =>
    rw [takeToken]
    split
    case isTrue => exact onward_stop turn passage
    case isFalse =>
      split
      case h_1 => exact .inl rfl
      case h_2 =>
        split
        case h_1 => exact .inl (by rw [h]; rfl)
        case h_2 => exact .inl rfl

theorem onward_takePlace (h : turn.worker.phase = .awaitingPlace passage) :
    Onward passage (turn.takePlace passage) := by
  unfold takePlace
  split
  case isTrue => exact onward_stop turn passage
  case isFalse =>
    dsimp only
    split
    case isTrue => exact .inl rfl
    case isFalse => exact .inl (by rw [h]; rfl)

theorem onward_fail (turn : Turn) (passage : Passage) (reason : String) :
    Onward passage (turn.fail passage reason) := by
  unfold fail
  dsimp only
  split
  case h_1 => exact .inl rfl
  case h_2 => exact .inr (.inr rfl)

theorem onward_conclude (turn : Turn) (passage : Passage) (answer : Outcome Unit) :
    Onward passage (turn.conclude passage answer) := by
  unfold conclude
  split
  case h_1 => exact .inr (.inl rfl)
  case h_2 => exact onward_fail _ passage "timeout"
  case h_3 => exact onward_fail _ passage "transport"

theorem onward_call (turn : Turn) (passage : Passage) : Onward passage (turn.call passage) := by
  unfold call
  split
  case isTrue => exact onward_stop turn passage
  case isFalse =>
    split
    case h_1 after _ => exact onward_fail after passage "circuit_open"
    case h_2 =>
      dsimp only
      split
      case h_1 answer _ => exact onward_conclude _ passage answer
      case h_2 => exact .inl rfl

theorem onward_await {number deadline : Nat} (h : turn.worker.phase = .inFlight passage number deadline) :
    Onward passage (turn.await passage number deadline) := by
  unfold await
  split
  case isTrue => exact onward_stop turn passage
  case isFalse =>
    split
    case h_1 => exact onward_conclude _ passage _
    case h_2 =>
      split
      case isTrue => exact onward_conclude _ passage _
      case isFalse => exact .inl (by rw [h]; rfl)

/-- A worker with a passage to ship gives it up only if it finds the gate shut when it sets about shipping. -/
theorem onward_step (h : turn.worker.phase.passage? = some passage) :
    Onward passage (step turn) ∨ (turn.worker.phase = .shipping passage ∧ turn.gateOpen = false) := by
  unfold step
  cases hphase : turn.worker.phase with
  | shipping other =>
    rw [hphase] at h
    cases h
    dsimp only
    unfold beginShipping
    split
    case isTrue => exact .inl (onward_stop turn passage)
    case isFalse =>
      split
      case isTrue => exact .inl (.inl rfl)
      case isFalse hshut => exact .inr ⟨rfl, Bool.not_eq_true _ ▸ hshut⟩
  | awaitingTokens other count =>
    rw [hphase] at h
    cases h
    exact .inl (onward_takeToken hphase)
  | awaitingPlace other =>
    rw [hphase] at h
    cases h
    exact .inl (onward_takePlace hphase)
  | calling other =>
    rw [hphase] at h
    cases h
    exact .inl (onward_call turn passage)
  | inFlight other number deadline =>
    rw [hphase] at h
    cases h
    exact .inl (onward_await hphase)
  | backingOff other wake =>
    rw [hphase] at h
    cases h
    dsimp only
    split
    case isTrue => exact .inl (onward_stop turn passage)
    case isFalse =>
      split
      case isTrue => exact .inl (.inl rfl)
      case isFalse => exact .inl (.inl (by rw [hphase]; rfl))
  | _ => rw [hphase] at h; cases h

/-! ## What is read -/

/-- What the worker makes of a batch. -/
def passageOf (turn : Turn) (file : FileRef) (closed hasNext : Bool) (batch : Batch) : Passage where
  shipment := ⟨turn.worker.key.origin, turn.worker.key.peer, batch.entries⟩
  file := file
  start := batch.start
  stop := batch.stop
  finishable := batch.exhausted && closed && (hasNext || turn.worker.key.isRecovered)
  exhausted := batch.exhausted

theorem phase_takeBatch (turn : Turn) (file : FileRef) (closed hasNext : Bool) (batch : Batch) :
    (turn.takeBatch file closed hasNext batch).worker.phase =
      if batch.isEmpty then (turn.passageOf file closed hasNext batch).afterShipping
      else .shipping (turn.passageOf file closed hasNext batch) := rfl

/-- The limits admit no entry, and the worker is about to read a file that it can open. -/
def Barred (turn : Turn) : Prop :=
  ¬turn.limits.Admits ∧ ∃ file offset hasNext source, turn.worker.phase = .reading file offset hasNext ∧
    turn.world.directory.open? file.path = .ok source ∧ offset ≤ Reader.maxOffset

/-- The step of a worker that can open the file. -/
theorem read_of_opened {source : Directory.Source} (hopen : turn.world.directory.open? file.path = .ok source)
    (hoffset : offset ≤ Reader.maxOffset) (hasNext : Bool) :
    turn.read file offset hasNext =
      match (Batch.take source turn.world.schema turn.limits
        (.start file.path offset (turn.activeLength? file))).1 with
      | .ok batch => turn.takeBatch file (turn.activeLength? file).isNone hasNext batch
      | .error (.log _) =>
        ((turn.measure (.logLoss turn.worker.key.peer "corrupt_record")).goTo .stalled).become .stalled
      | .error _ => turn.pause := by
  unfold read
  dsimp only
  rw [Reader.openAt, hopen]
  dsimp only
  rw [if_neg (Nat.not_lt.mpr hoffset)]
  rfl

/-- If the limits admit no entry, the worker counts a reading of nothing and goes on. -/
theorem read_of_not_admits {source : Directory.Source}
    (hopen : turn.world.directory.open? file.path = .ok source) (hoffset : offset ≤ Reader.maxOffset)
    (hbarred : ¬turn.limits.Admits) (hasNext : Bool) :
    turn.read file offset hasNext = (turn.measure (.editsRead turn.worker.key.peer 0 0)).goTo .ready := by
  rw [read_of_opened hopen hoffset, Batch.take_of_not_admits hbarred]
  dsimp only
  generalize hreader : Reader.start file.path offset (turn.activeLength? file) = reader
  generalize hbatch : (⟨[], 0, 0, reader.position, reader.position, false, reader.truncated⟩ : Batch) = batch
  have hend : (turn.passageOf file (turn.activeLength? file).isNone hasNext batch).afterShipping = .ready := by
    subst hbatch
    exact (afterShipping_eq_ready_iff _).mpr ⟨Nat.le_refl _, (next_eq_ready_iff _).mpr ⟨rfl, rfl⟩⟩
  rw [← hend]
  subst hbatch hreader
  rfl

/-- A worker that cannot open the file waits, or takes it off. -/
theorem read_ne_ready_of_unopened
    (h : ∀ source, turn.world.directory.open? file.path = .ok source → Reader.maxOffset < offset)
    (hasNext : Bool) : (turn.read file offset hasNext).worker.phase ≠ .ready := by
  have hread : (∃ fault, turn.world.directory.open? file.path = .error fault) ∨
      ∃ source, turn.world.directory.open? file.path = .ok source ∧ Reader.maxOffset < offset := by
    cases hopen : turn.world.directory.open? file.path with
    | error fault => exact .inl ⟨fault, rfl⟩
    | ok source => exact .inr ⟨source, rfl, h source hopen⟩
  intro hready
  unfold read at hready
  dsimp only at hready
  rcases hread with ⟨fault, hopen⟩ | ⟨source, hopen, hbehind⟩
  · rw [Reader.openAt, hopen] at hready
    cases fault with
    | notFound =>
      change (ite _ _ _ : Turn).worker.phase = .ready at hready
      split at hready <;> cases hready
    | _ => cases hready
  · rw [Reader.openAt, hopen] at hready
    dsimp only at hready
    rw [if_pos hbehind] at hready
    cases hready

/-- The worker goes on at once behind what it reads if and only if the limits admit no entry. -/
theorem continues_iff_barred (hphase : turn.worker.phase = .reading file offset hasNext) :
    turn.Continues ↔ turn.Barred := by
  have hamid : turn.Continues ↔ (turn.read file offset hasNext).worker.phase = .ready := by
    rw [Continues, step_reading hphase, hphase]
    exact and_iff_right rfl
  rw [hamid]
  by_cases hopened : ∃ source, turn.world.directory.open? file.path = .ok source ∧ offset ≤ Reader.maxOffset
  case neg =>
    refine iff_of_false (read_ne_ready_of_unopened (fun source hopen ↦ ?_) hasNext) ?_
    · exact Nat.not_le.mp fun hle ↦ hopened ⟨source, hopen, hle⟩
    · rintro ⟨-, file', offset', hasNext', source, hphase', hopen, hle⟩
      cases hphase.symm.trans hphase'
      exact hopened ⟨source, hopen, hle⟩
  case pos =>
    obtain ⟨source, hopen, hle⟩ := hopened
    constructor
    case mp =>
      rw [read_of_opened hopen hle]
      intro hready
      refine ⟨fun hadmits ↦ ?_, file, offset, hasNext, source, hphase, hopen, hle⟩
      split at hready
      case h_1 batch htaken =>
        have hend := Batch.exhausted_or_lt hadmits rfl htaken
        rw [phase_takeBatch] at hready
        split at hready
        case isTrue =>
          obtain ⟨hstop, hnext⟩ := (afterShipping_eq_ready_iff _).mp hready
          obtain ⟨-, hmore⟩ := (next_eq_ready_iff _).mp hnext
          rcases hend with hexhausted | hlt
          · exact Bool.false_ne_true (hmore.symm.trans hexhausted)
          · exact Nat.not_lt.mpr hstop hlt
        case isFalse => cases hready
      case h_2 => cases hready
      case h_3 => cases hready
    case mpr =>
      rintro ⟨hbarred, -⟩
      rw [read_of_not_admits hopen hle hbarred]
      rfl

/-- What a step does with what the worker has in hand. If there is anything, the scene is as it was. -/
inductive Handles (turn after : Turn) : Prop
  | nothing (h : after.worker.phase.Light)
  /-- The worker is about to read from where the queue stands. -/
  | begins {file : FileRef} {offset : Nat} {hasNext : Bool} (hscene : after.scene = turn.scene)
      (hphase : after.worker.phase = .reading file offset hasNext)
      (hposition : turn.scene.position? = some (file, offset))
  /-- The worker has read a passage. -/
  | gets {file : FileRef} {offset : Nat} {hasNext : Bool} {passage : Passage} (hscene : after.scene = turn.scene)
      (hphase : turn.worker.phase = .reading file offset hasNext)
      (hhand : after.worker.phase.hand? = some passage)
      (hspans : passage.Spans turn.world.directory file offset)
  | keeps {passage : Passage} (hscene : after.scene = turn.scene)
      (hbefore : turn.worker.phase.hand? = some passage) (hafter : after.worker.phase.hand? = some passage)

theorem handles_load (turn : Turn) : turn.Handles turn.load := by
  rcases load_cases turn with ⟨-, hfree⟩ | ⟨queue, hqueue, hscene, ⟨-, -, hdropping⟩ | ⟨file, hhead, hreading⟩⟩
  · exact .nothing (Phase.light_of_free hfree)
  · exact .nothing (by rw [hdropping]; trivial)
  · refine .begins hscene hreading ?_
    show (turn.world.database.queues.get? turn.worker.key).bind _ = _
    rw [hqueue, Option.bind_some, hhead]
    rfl

theorem handles_read (hphase : turn.worker.phase = .reading file offset hasNext) :
    turn.Handles (turn.read file offset hasNext) := by
  cases hcontent : content? turn.world.directory file with
  | none =>
    rcases read_cases_of_missing offset hasNext hcontent with ⟨-, hfree⟩ | ⟨-, hgone⟩
    · exact .nothing (Phase.light_of_free hfree)
    · exact .nothing (by rw [hgone]; trivial)
  | some content =>
    rcases read_cases offset hasNext hcontent with ⟨-, hfree⟩ | ⟨batch, htaken, hread⟩
    · exact .nothing (Phase.light_of_free hfree)
    · generalize hpassage : turn.passageOf file (turn.activeLength? file).isNone hasNext batch = passage
      have hspans (hlt : batch.start < batch.stop) : passage.Spans turn.world.directory file offset := by
        subst hpassage
        refine ⟨rfl, (Batch.take_chain rfl htaken).1, hlt, ?_⟩
        rw [extent, hcontent]
        exact Batch.stop_le_length rfl htaken hlt
      have hscene := scene_read turn file offset hasNext
      have htaking : (turn.read file offset hasNext).worker.phase =
          if batch.isEmpty then passage.afterShipping else .shipping passage := by
        rw [hread, phase_takeBatch, hpassage]
      split at htaking
      case isTrue =>
        rcases afterShipping_cases passage with hlight | ⟨hlt, hhand⟩
        · exact .nothing (htaking ▸ hlight)
        · exact .gets hscene hphase (htaking ▸ hhand) (hspans (by subst hpassage; exact hlt))
      case isFalse hfull =>
        refine .gets hscene hphase (htaking ▸ rfl) (hspans (Batch.lt_of_entries_ne_nil rfl htaken ?_))
        exact fun hempty ↦ hfull (List.isEmpty_iff.mpr hempty)

theorem handles_step (turn : Turn) : turn.Handles (step turn) := by
  cases hphase : turn.worker.phase with
  | ready | gated | idle | pausing | stalled | stopped =>
    have hidles : turn.Idles (step turn) := step_of_free (by rw [hphase]; trivial) (by rw [hphase]; nofun)
    exact .nothing (Phase.light_of_free hidles.2)
  | loading => exact step_loading hphase ▸ handles_load turn
  | reading file offset hasNext => exact step_reading hphase ▸ handles_read hphase
  | dropping =>
    rw [step_dropping hphase]
    rcases drop_cases turn with ⟨-, hfree⟩ | ⟨-, hfree⟩
    · exact .nothing (Phase.light_of_free hfree)
    · exact .nothing (Phase.light_of_free hfree)
  | advancing passage =>
    rw [step_advancing hphase]
    rcases advance_cases hphase with ⟨-, -, -, -, hnext⟩ | ⟨-, ⟨-, hfree⟩, -⟩
    · exact .nothing (hnext ▸ light_next passage)
    · exact .nothing (Phase.light_of_free hfree)
  | finishing file =>
    rw [step_finishing hphase]
    rcases finish_cases hphase with ⟨-, -, -, -, hready⟩ | ⟨-, ⟨-, hfree⟩, -⟩
    · exact .nothing (by rw [hready]; trivial)
    · exact .nothing (Phase.light_of_free hfree)
  | shipping passage | awaitingTokens passage _ | awaitingPlace passage | calling passage
  | inFlight passage _ _ | backingOff passage _ =>
    have hpassage : turn.worker.phase.passage? = some passage := by rw [hphase]; rfl
    have hbefore := Phase.hand?_of_passage hpassage
    rcases step_of_passage hpassage with ⟨hscene, hkept | hfree⟩ | ⟨-, hscene, hshipped⟩
    · exact .keeps hscene hbefore (Phase.hand?_of_passage hkept)
    · exact .nothing (Phase.light_of_free hfree)
    · rcases afterShipping_cases passage with hlight | ⟨-, hhand⟩
      · exact .nothing (hshipped ▸ hlight)
      · exact .keeps hscene hbefore (hshipped ▸ hhand)

/-! ## Steps from which the worker goes on at once -/

theorem load_ne_ready (turn : Turn) : turn.load.worker.phase ≠ .ready := by
  unfold load
  dsimp only
  split
  case h_1 => nofun
  case h_2 => nofun
  case h_3 =>
    split
    case h_1 =>
      rw [phase_goTo]
      split <;> nofun
    case h_2 => nofun

theorem drop_ne_ready (turn : Turn) : turn.drop.worker.phase ≠ .ready := by
  unfold drop
  split <;> nofun

/-- Behind an operation on the queue the worker goes on at once only if it was carried out. -/
theorem ok_of_afterQueue_eq_ready {α : Type} {phase : Phase} {result : Outcome α × World}
    (h : (turn.afterQueue phase result).worker.phase = .ready) : ∃ answer, result.1 = .ok answer := by
  unfold afterQueue at h
  split at h
  case h_1 answer world => exact ⟨answer, rfl⟩
  case h_2 => split at h <;> cases h

theorem stores_of_advance_eq_ready (hphase : turn.worker.phase = .advancing passage)
    (h : (turn.advance passage).worker.phase = .ready) : turn.stores? = some passage.shipment := by
  obtain ⟨answer, hok⟩ := ok_of_afterQueue_eq_ready h
  replace hok : (turn.world.advance turn.worker.key passage.start passage.target).1 = .ok answer := hok
  rw [stores?, hphase]
  dsimp only
  rw [hok]

theorem finishes_of_finish_eq_ready (hphase : turn.worker.phase = .finishing file)
    (h : (turn.finish file).worker.phase = .ready) : turn.finishes? = some file := by
  obtain ⟨answer, hok⟩ := ok_of_afterQueue_eq_ready h
  rw [finishes?, hphase]
  dsimp only
  rw [hok]

/-- A worker that goes on at once has read nothing for its limits, found the gate shut, had a passage to ship
that does not lead on, moved the position, or taken a file off. -/
theorem continues_cases (h : turn.Continues) :
    turn.Barred ∨
    (∃ passage, turn.worker.phase = .shipping passage ∧ turn.gateOpen = false) ∨
    (∃ passage, turn.worker.phase.hand? = some passage ∧ passage.stop ≤ passage.start) ∨
    (∃ passage queues, turn.worker.phase = .advancing passage ∧
      turn.tables.advance turn.worker.key passage.start passage.target = .ok queues ∧
      (step turn).scene = turn.scene.withQueues queues) ∨
    (∃ file queues, turn.worker.phase = .finishing file ∧ turn.finishes? = some file ∧
      turn.tables.finish turn.worker.key file.seq = .ok queues ∧
      (step turn).scene = turn.scene.withQueues queues) := by
  obtain ⟨hamid, hready⟩ := id h
  cases hphase : turn.worker.phase with
  | ready | gated | idle | pausing | stalled | stopped =>
    rw [hphase] at hamid
    cases hamid
  | loading => exact absurd (step_loading hphase ▸ hready) (load_ne_ready turn)
  | dropping => exact absurd (step_dropping hphase ▸ hready) (drop_ne_ready turn)
  | reading file offset hasNext => exact .inl ((continues_iff_barred hphase).mp h)
  | advancing passage =>
    rw [step_advancing hphase] at hready ⊢
    have hstores := stores_of_advance_eq_ready hphase hready
    rcases advance_cases hphase with ⟨queues, hok, -, hscene, -⟩ | ⟨hnone, -⟩
    · exact .inr (.inr (.inr (.inl ⟨passage, queues, rfl, hok, hscene⟩)))
    · cases hnone.symm.trans hstores
  | finishing file =>
    rw [step_finishing hphase] at hready ⊢
    have hfinishes := finishes_of_finish_eq_ready hphase hready
    rcases finish_cases hphase with ⟨queues, hok, -, hscene, -⟩ | ⟨hnone, -⟩
    · exact .inr (.inr (.inr (.inr ⟨file, queues, rfl, hfinishes, hok, hscene⟩)))
    · cases hnone.symm.trans hfinishes
  | shipping passage | awaitingTokens passage _ | awaitingPlace passage | calling passage
  | inFlight passage _ _ | backingOff passage _ =>
    have hpassage : turn.worker.phase.passage? = some passage := by rw [hphase]; rfl
    rcases onward_step hpassage with (hkept | hshipped | hstopped) | ⟨hshipping, hshut⟩
    · rw [hready] at hkept
      cases hkept
    · have hend := (afterShipping_eq_ready_iff passage).mp (hshipped.symm.trans hready)
      exact .inr (.inr (.inl ⟨passage, rfl, hend.1⟩))
    · cases hready.symm.trans hstopped
    · exact .inr (.inl ⟨passage, hphase ▸ hshipping, hshut⟩)

end Turn

end Worker

end LogShipping
