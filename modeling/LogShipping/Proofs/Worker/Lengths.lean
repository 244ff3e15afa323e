import LogShipping.Proofs.Log.Lengths
import LogShipping.Proofs.Worker.Pace
import LogShipping.Proofs.Worker.Stall

/-!
# Workers in front of a damaged length

A worker that reads a closed file stalls in front of a record whose damage is detected, and keeps the file. It
takes the damaged record for the torn end of the file if its length leads behind that end, counts the loss, and
takes the file off the queue with all that follows there.
-/

namespace LogShipping.Worker

open Log QueueTables

namespace Turn

variable {turn : Turn} {file : FileRef} {start : Nat} {content : Bytes}

section Closed

/-! ## Reading a closed file on from an offset -/

theorem nextFrom_start (path : String) (hstart : start ≤ content.length)
    (hfits : content.length + Reader.block ≤ Reader.maxOffset) :
    (Reader.start path start none).nextFrom (.file content) = (Reader.start path start none).next content :=
  Reader.nextFrom_file (show start + Reader.block ≤ Reader.maxOffset by omega)

variable (hcontent : content? turn.world.directory file = some content)
  (hclosed : turn.activeLength? file = none) (hstart : start ≤ content.length)
  (hfits : content.length + Reader.block ≤ Reader.maxOffset)

include hcontent hclosed hstart hfits

theorem read_of_closed (hasNext : Bool) :
    turn.read file start hasNext =
      match (Batch.take (.file content) turn.world.schema turn.limits (.start file.path start none)).1 with
      | .ok batch => turn.takeBatch file true hasNext batch
      | .error (.log _) =>
        ((turn.measure (.logLoss turn.worker.key.peer "corrupt_record")).goTo .stalled).become .stalled
      | .error _ => turn.pause := by
  have hoffset : start ≤ Reader.maxOffset := by omega
  rw [read_of_opened (content?_eq_some_iff.mp hcontent) hoffset, hclosed]
  rfl

variable (hadmits : turn.limits.Admits)

include hadmits

/-- In front of what is not whole a worker finds the end of the file, and that it is torn. -/
theorem read_of_incomplete (hincomplete : Frame.decode (content.drop start) = .incomplete)
    (hsome : content.drop start ≠ []) (hasNext : Bool) :
    turn.read file start hasNext = turn.takeBatch file true hasNext ⟨[], 0, 0, start, start, true, true⟩ := by
  obtain ⟨after, hreads, hposition, htruncated⟩ := Reader.Reads.of_incomplete file.path hincomplete
  rw [List.isEmpty_eq_false_iff.mpr hsome] at htruncated
  cases hreads with
  | ended hnext =>
    obtain ⟨hsize, hcount⟩ := hadmits
    obtain ⟨turns, hturns⟩ := Nat.exists_eq_add_one_of_ne_zero (Nat.ne_of_gt hcount)
    have htake : (Batch.take (.file content) turn.world.schema turn.limits (.start file.path start none)).1 =
        .ok ⟨[], 0, 0, start, start, true, true⟩ := by
      unfold Batch.take
      dsimp only
      rw [hturns, Batch.gather, if_neg (Nat.not_le.mpr hsize), nextFrom_start _ hstart hfits, hnext]
      dsimp only
      rw [hposition, htruncated]
      rfl
    rw [read_of_closed hcontent hclosed hstart hfits, htake]

/-- In front of what is no record a worker stalls. -/
theorem read_of_damaged (htold : Frame.decode (content.drop start) ≠ .incomplete)
    (hillegible : ∀ payload consumed entry, Frame.decode (content.drop start) = .complete payload consumed →
      Entry.decode payload ≠ .ok entry) (hasNext : Bool) :
    turn.read file start hasNext =
      ((turn.measure (.logLoss turn.worker.key.peer "corrupt_record")).goTo .stalled).become .stalled := by
  obtain ⟨detail, after, hreads, -⟩ := Reader.Reads.of_damaged file.path htold hillegible
  cases hreads with
  | failed hnext =>
    have hreached : ¬turn.limits.Reached turn.world.schema [] :=
      not_or.mpr ⟨Nat.not_le.mpr hadmits.2, Nat.not_le.mpr hadmits.1⟩
    rw [← nextFrom_start _ hstart hfits, ← Batch.take_eq_error_iff hreached] at hnext
    rw [read_of_closed hcontent hclosed hstart hfits, hnext]

/-- In front of a record a worker gets on. -/
theorem read_of_record {stop : Nat} {entry : Entry} (hrecord : Chain content start stop [entry])
    (hasNext : Bool) :
    ∃ batch, batch.start < batch.stop ∧
      turn.read file start hasNext = turn.takeBatch file true hasNext batch := by
  rcases htake : Batch.take (.file content) turn.world.schema turn.limits (.start file.path start none) with
    ⟨error | batch, after⟩
  case error =>
    have hreached : ¬turn.limits.Reached turn.world.schema [] :=
      not_or.mpr ⟨Nat.not_le.mpr hadmits.2, Nat.not_le.mpr hadmits.1⟩
    rw [Batch.take_eq_error_iff hreached, nextFrom_start _ hstart hfits] at htake
    cases hrecord with
    | cons hframe hentry _ =>
      have hnext : Reader.next content (.start file.path start none) = _ := Reader.next_of_complete rfl hframe
      rw [hentry, htake] at hnext
      cases hnext
  case ok =>
    have hresult := congrArg Prod.fst htake
    refine ⟨batch, ?_, by rw [read_of_closed hcontent hclosed hstart hfits, hresult]⟩
    rcases Batch.exhausted_or_lt hadmits rfl hresult with hexhausted | hlt
    · obtain ⟨hbegin, read, hread, -, hend⟩ := Batch.take_chain rfl hresult
      rw [hbegin] at hread ⊢
      -- The end was found, which is not in front of the record.
      exact Nat.lt_of_lt_of_le hrecord.lt (hread.le_of_incomplete (hend rfl hexhausted) hrecord)
    · exact hlt

end Closed

/-! ## What the worker makes of it -/

section Ends

variable {batch : Batch} (hasNext : Bool)

/-- The torn end of a closed file is a loss, and what is left of the file is given up. -/
theorem takeBatch_torn (turn : Turn) (file : FileRef) (start : Nat)
    (hlast : hasNext = true ∨ turn.worker.key.isRecovered = true) :
    turn.takeBatch file true hasNext ⟨[], 0, 0, start, start, true, true⟩ =
      ((turn.measure (.editsRead turn.worker.key.peer 0 0)).measure
        (.logLoss turn.worker.key.peer "torn_tail")).goTo (.finishing file) := by
  have hfinishable : (hasNext || turn.worker.key.isRecovered) = true := by
    rwa [Bool.or_eq_true]
  simp [takeBatch, hfinishable, Batch.isEmpty, Batch.filtered, Passage.afterShipping, Passage.madeProgress,
    Passage.next]

/-- The last file of a node's own queue is kept. -/
theorem phase_takeBatch_torn (turn : Turn) (file : FileRef) (start : Nat) :
    (turn.takeBatch file true hasNext ⟨[], 0, 0, start, start, true, true⟩).worker.phase =
      if hasNext = true ∨ turn.worker.key.isRecovered = true then .finishing file else .idle := by
  simp [phase_takeBatch, passageOf, Batch.isEmpty, Passage.afterShipping, Passage.madeProgress, Passage.next]

/-- A worker that got on does not leave the file yet. -/
theorem phase_takeBatch_of_lt (turn : Turn) (file : FileRef) (closed : Bool) (hlt : batch.start < batch.stop) :
    ∃ passage, (turn.takeBatch file closed hasNext batch).worker.phase = .shipping passage ∨
      (turn.takeBatch file closed hasNext batch).worker.phase = .advancing passage := by
  refine ⟨turn.passageOf file closed hasNext batch, ?_⟩
  rw [phase_takeBatch]
  split
  case isTrue => exact .inr (if_pos (decide_eq_true hlt))
  case isFalse => exact .inl rfl

end Ends

end Turn

/-! ## The damaged length -/

section Damage

variable {content damaged : Bytes} {before : List Entry} {entry : Entry} {start stop index length : Nat}
  {mask : UInt8}

/-- A worker that comes to the damaged record of a closed file stalls there if the damage is detected, and takes
the file off if the length leads behind its end. -/
theorem phase_step_damaged_length (hrecord : Chain content start stop [entry]) (hindex : index < 4)
    (hdamaged : damaged = content.flip (start + index) mask)
    (hlength : length = Frame.payloadLength (damaged.drop start)) {turn : Turn} {file : FileRef} {hasNext : Bool}
    (hphase : turn.worker.phase = .reading file start hasNext)
    (hcontent : content? turn.world.directory file = some damaged) (hclosed : turn.activeLength? file = none)
    (hfits : damaged.length + Reader.block ≤ Reader.maxOffset) :
    ((step turn).worker.phase = .stalled ↔ turn.limits.Admits ∧ Detected content start length) ∧
      ((step turn).worker.phase = .finishing file ↔
        turn.limits.Admits ∧ Overruns content start length ∧
          (hasNext = true ∨ turn.worker.key.isRecovered = true)) := by
  have hheader := hrecord.header_le
  have hstart : start ≤ damaged.length := by
    rw [hdamaged, Bytes.length_flip]
    rw [List.length_drop, Frame.headerSize] at hheader
    omega
  rw [Turn.step_reading hphase]
  by_cases hadmits : turn.limits.Admits
  case neg =>
    have hoffset : start ≤ Reader.maxOffset := by omega
    rw [Turn.read_of_not_admits (content?_eq_some_iff.mp hcontent) hoffset hadmits, Turn.phase_goTo]
    exact ⟨iff_of_false (by simp) fun h ↦ hadmits h.1, iff_of_false (by simp) fun h ↦ hadmits h.1⟩
  case pos =>
    rcases front_of_damage hheader hindex hdamaged hlength with
      ⟨hoverruns, hincomplete⟩ | ⟨other, _, hmisread, hfront⟩ | ⟨hdetected, hdamage⟩
    · have hsome : damaged.drop start ≠ [] := by
        rw [← List.length_pos_iff, hdamaged, List.length_drop, Bytes.length_flip]
        rw [List.length_drop, Frame.headerSize] at hheader
        omega
      rw [Turn.read_of_incomplete hcontent hclosed hstart hfits hadmits hincomplete hsome,
        Turn.phase_takeBatch_torn]
      split
      case isTrue hlast =>
        exact ⟨iff_of_false (by simp) fun h ↦ h.2.1 hoverruns, iff_of_true rfl ⟨hadmits, hoverruns, hlast⟩⟩
      case isFalse hlast =>
        exact ⟨iff_of_false (by simp) fun h ↦ h.2.1 hoverruns, iff_of_false (by simp) fun h ↦ hlast h.2.2⟩
    · obtain ⟨batch, hlt, hread⟩ := Turn.read_of_record hcontent hclosed hstart hfits hadmits hfront hasNext
      have hnot : ¬Overruns content start length := fun h ↦ Nat.not_lt.mpr hmisread.inside h.2
      rw [hread]
      obtain ⟨passage, hpassage | hpassage⟩ := Turn.phase_takeBatch_of_lt hasNext turn file true hlt
      · rw [hpassage]
        exact ⟨iff_of_false (by simp) fun h ↦ h.2.2 other hmisread, iff_of_false (by simp) fun h ↦ hnot h.2.1⟩
      · rw [hpassage]
        exact ⟨iff_of_false (by simp) fun h ↦ h.2.2 other hmisread, iff_of_false (by simp) fun h ↦ hnot h.2.1⟩
    · rw [Turn.read_of_damaged hcontent hclosed hstart hfits hadmits hdamage.told hdamage.illegible]
      exact ⟨iff_of_true rfl ⟨hadmits, hdetected⟩,
        iff_of_false (fun h ↦ by cases h) fun h ↦ hdetected.1 h.2.1⟩

/-- The loss is counted. -/
theorem step_overrun (hrecord : Chain content start stop [entry])
    (hdamaged : damaged = content.flip (start + index) mask)
    (hlength : length = Frame.payloadLength (damaged.drop start)) (hoverruns : Overruns content start length)
    {turn : Turn} {file : FileRef} {hasNext : Bool} (hphase : turn.worker.phase = .reading file start hasNext)
    (hcontent : content? turn.world.directory file = some damaged) (hclosed : turn.activeLength? file = none)
    (hfits : damaged.length + Reader.block ≤ Reader.maxOffset) (hadmits : turn.limits.Admits)
    (hlast : hasNext = true ∨ turn.worker.key.isRecovered = true) :
    step turn = ((turn.measure (.editsRead turn.worker.key.peer 0 0)).measure
      (.logLoss turn.worker.key.peer "torn_tail")).goTo (.finishing file) := by
  have hinside := hrecord.start_lt
  have hsize : start < damaged.length := by rwa [hdamaged, Bytes.length_flip]
  have hsome : damaged.drop start ≠ [] := by
    rw [ne_eq, List.drop_eq_nil_iff]
    omega
  subst hdamaged hlength
  have hincomplete := (decode_flip_eq_incomplete_iff hrecord.header_le).mpr hoverruns
  rw [Turn.step_reading hphase, Turn.read_of_incomplete hcontent hclosed (Nat.le_of_lt hsize) hfits hadmits
    hincomplete hsome, Turn.takeBatch_torn hasNext turn file start hlast]

/-- If its damage is detected, no run gets past the record, and the file stays on the queue. -/
theorem stalled_damaged_length (hrecord : Chain content start stop [entry]) (hindex : index < 4)
    (hdamaged : damaged = content.flip (start + index) mask)
    (hlength : length = Frame.payloadLength (damaged.drop start)) (hdetected : Detected content start length)
    {turn : Turn} {queue : Queue} {head : FileRef} {passed : List Entry} {relay : Relay}
    (hfree : turn.worker.phase.Free) (hreach : turn.world.database.queues.Reachable)
    (hqueue : turn.world.database.queues.get? turn.worker.key = some queue) (hhead : queue.head? = some head)
    (hcontent : content? turn.world.directory head = some damaged)
    (hpassed : Chain content queue.offset start passed) (hleads : (Relay.opening turn).Leads relay) :
    Relay.Stalled queue turn.world.schema head damaged start relay := by
  have hsame : damaged.take start = content.take start := by
    rw [hdamaged, take_flip (Nat.le_of_lt hrecord.start_lt)]
  have hdamage : Damaged damaged queue.offset start := by
    rcases front_of_damage hrecord.header_le hindex hdamaged hlength with
      ⟨hoverruns, -⟩ | ⟨other, _, hmisread, -⟩ | ⟨-, hdamage⟩
    · exact absurd hoverruns hdetected.1
    · exact absurd hmisread (hdetected.2 other)
    · exact ⟨⟨passed, hpassed.congr hsame⟩, hdamage.told, hdamage.illegible⟩
  exact ((Relay.Orderly.opening turn hfree hreach hqueue).leads hleads).stalled hhead hcontent hdamage

/-- In a file of records one octet of the length of a record is changed. A reader without a limit answers the
records in front of it. It then fails at the record if and only if its damage is detected; it ends there, as at
a torn end, if and only if the length leads behind the end of the file; and it takes other octets for an entry
if and only if these have the checksum of the record. A worker that comes there in a closed file, with limits
that let it read, stalls in the first case, and in all its runs the queue keeps the file and does not get past
the record; in the second case, if the file may be finished, the worker counts a torn tail and finishes it. -/
theorem damaged_length_iff (path : String) (hbefore : Chain content 0 start before)
    (hrecord : Chain content start stop [entry]) (hindex : index < 4) (hmask : mask ≠ 0)
    (hdamaged : damaged = content.flip (start + index) mask)
    (hlength : length = Frame.payloadLength (damaged.drop start)) :
    length ≠ Frame.payloadLength (content.drop start) ∧
      (FailsAt damaged path before start ↔ Detected content start length) ∧
      (EndsTornAt damaged path before start ↔ Overruns content start length) ∧
      (∀ other, Answers damaged path (before ++ [other]) ↔ Misread content start length other) ∧
      (∀ turn file hasNext, turn.worker.phase = .reading file start hasNext →
        content? turn.world.directory file = some damaged → turn.activeLength? file = none →
        damaged.length + Reader.block ≤ Reader.maxOffset →
        ((step turn).worker.phase = .stalled ↔ turn.limits.Admits ∧ Detected content start length) ∧
        ((step turn).worker.phase = .finishing file ↔
          turn.limits.Admits ∧ Overruns content start length ∧
            (hasNext = true ∨ turn.worker.key.isRecovered = true)) ∧
        ((step turn).worker.phase = .finishing file →
          step turn = ((turn.measure (.editsRead turn.worker.key.peer 0 0)).measure
            (.logLoss turn.worker.key.peer "torn_tail")).goTo (.finishing file))) ∧
      (Detected content start length → ∀ turn queue head passed relay, turn.worker.phase.Free →
        turn.world.database.queues.Reachable →
        turn.world.database.queues.get? turn.worker.key = some queue → queue.head? = some head →
        content? turn.world.directory head = some damaged → Chain content queue.offset start passed →
        (Relay.opening turn).Leads relay → Relay.Stalled queue turn.world.schema head damaged start relay) := by
  have hother : length ≠ Frame.payloadLength (content.drop start) := by
    have hfour : 4 ≤ (content.drop start).length := Nat.le_trans (by decide) hrecord.header_le
    rw [hlength, hdamaged, drop_flip (Nat.le_of_lt hrecord.start_lt)]
    exact Frame.payloadLength_flip_ne hindex hfour hmask
  obtain ⟨hfails, hends, hanswers⟩ := reads_damaged_length path hbefore hrecord hindex hdamaged hlength
  refine ⟨hother, hfails, hends, hanswers, fun turn file hasNext hphase hcontent hclosed hfits ↦ ?_,
    fun hdetected turn queue head passed relay hfree hreach hqueue hhead hcontent hpassed hleads ↦ ?_⟩
  · obtain ⟨hstalled, hfinishing⟩ :=
      phase_step_damaged_length hrecord hindex hdamaged hlength hphase hcontent hclosed hfits
    refine ⟨hstalled, hfinishing, fun h ↦ ?_⟩
    obtain ⟨hadmits, hoverruns, hlast⟩ := hfinishing.mp h
    exact step_overrun hrecord hdamaged hlength hoverruns hphase hcontent hclosed hfits hadmits hlast
  · exact stalled_damaged_length hrecord hindex hdamaged hlength hdetected hfree hreach hqueue hhead
      hcontent hpassed hleads

end Damage

namespace Sample

/-- A stored entry three times, the second length off by one. -/
def lengthened : Bytes := (record ++ record ++ record).flip (42 + 0) 1

/-- Two records. The length of the first one leads behind the end of the file. -/
def overrun : Bytes := (written [bareEntry, putEntry]).flip (0 + 2) 1

/-- An entry without cells, as an array. -/
def compact : Bytes := [91, 34, 116, 34, 44, 49, 44, 48, 44, 91, 93, 93]

/-- The same with spaces and tabs behind it that leave the checksum as it is. -/
def spaced : Bytes :=
  compact ++ [32, 32, 9, 32, 32, 32, 9, 32, 9, 32, 9, 9, 32, 9, 32, 9, 9, 32, 32, 32, 9, 32, 9, 32, 32, 32, 9, 32,
    9, 9]

/-- Two records. The damaged length of the first one leaves out the spaces and tabs. -/
def shortened : Bytes := (Frame.encode spaced ++ Frame.encode compact).flip (0 + 0) 38

/-- A node with such a file on the queue that it recovered. -/
def worldWith (content : Bytes) : World := { world with directory := ⟨[("w", content)]⟩ }

/-- A worker about to read the file on from an offset. -/
def reader (content : Bytes) (offset : Nat) : Turn where
  world := worldWith content
  facilities := facilities
  worker := { Worker.create key (.remote "p") 0 ⟨"p", 0⟩ with phase := .reading ⟨1, "w"⟩ offset false }

end Sample

theorem damaged_length_stalls :
    FailsAt Sample.lengthened "w" [Sample.entry] 42 ∧
      (step (Sample.reader Sample.lengthened 42)).worker.phase = .stalled ∧
      Relay.Stalled ⟨Sample.key, [⟨1, "w"⟩], 0⟩ (.ofNames ["f"]) ⟨1, "w"⟩ Sample.lengthened 42
        (Nat.repeat Relay.work 12 (.opening ⟨Sample.worldWith Sample.lengthened, Sample.facilities,
          .create Sample.key (.remote "p") 0 ⟨"p", 0⟩⟩)) := by
  have hentry : Entry.decode (Sample.record.drop 8) = .ok Sample.entry := by rfl
  have hframe : Frame.decode ((Sample.record ++ Sample.record ++ Sample.record).drop 0) =
      .complete (Sample.record.drop 8) 42 := by decide +kernel
  have hframe' : Frame.decode ((Sample.record ++ Sample.record ++ Sample.record).drop 42) =
      .complete (Sample.record.drop 8) 42 := by decide +kernel
  have hfirst := Chain.singleton hframe hentry
  have hlength : 35 = Frame.payloadLength (Sample.lengthened.drop 42) := by decide +kernel
  have hdetected : Detected (Sample.record ++ Sample.record ++ Sample.record) 42 35 :=
    ⟨by decide +kernel, fun entry h ↦ absurd h.checksum (by decide +kernel)⟩
  obtain ⟨-, hfails, -, -, hworker, hruns⟩ := damaged_length_iff "w" hfirst (.singleton hframe' hentry)
    (show 0 < 4 by decide) (show (1 : UInt8) ≠ 0 by decide) (show Sample.lengthened = _ from rfl) hlength
  refine ⟨hfails.mpr hdetected, ?_, ?_⟩
  · exact (hworker (Sample.reader Sample.lengthened 42) ⟨1, "w"⟩ false rfl (by decide +kernel) rfl
      (by decide +kernel)).1.mpr ⟨by decide +kernel, hdetected⟩
  · exact hruns hdetected ⟨Sample.worldWith Sample.lengthened, Sample.facilities,
      .create Sample.key (.remote "p") 0 ⟨"p", 0⟩⟩ _ _ _ _ trivial ⟨_, rfl⟩ (by decide +kernel) rfl
      (by decide +kernel) hfirst (Relay.leads_repeat _ 12)

/-- Behind the end of the file all records are lost: reading ends cleanly in front of the first record, and the
worker takes the file off. A shorter length is misread. -/
theorem damaged_length_overruns :
    ¬FailsAt Sample.overrun "w" [] 0 ∧ EndsTornAt Sample.overrun "w" [] 0 ∧
      (step (Sample.reader Sample.overrun 0)).worker.phase = .finishing ⟨1, "w"⟩ ∧
      ¬FailsAt Sample.shortened "w" [] 0 ∧ Answers Sample.shortened "w" [bareEntry] := by
  have hfirst : Frame.decode ((written [bareEntry, putEntry]).drop 0) = .complete bareEntry.payload 63 := by
    decide +kernel
  have hspaced : Frame.decode ((Frame.encode Sample.spaced ++ Frame.encode Sample.compact).drop 0) =
      .complete Sample.spaced 50 := by decide +kernel
  have hentry : Entry.decode Sample.spaced = .ok bareEntry := by rfl
  obtain ⟨hfails, hends, -⟩ := reads_damaged_length "w" (.nil 0)
    (Chain.singleton hfirst bareEntry.decode_payload) (show 2 < 4 by decide) (show Sample.overrun = _ from rfl) rfl
  obtain ⟨hfails', -, hanswers⟩ := reads_damaged_length "w" (.nil 0) (Chain.singleton hspaced hentry)
    (show 0 < 4 by decide) (show Sample.shortened = _ from rfl) rfl
  have hmisread : Misread (Frame.encode Sample.spaced ++ Frame.encode Sample.compact) 0
      (Frame.payloadLength (Sample.shortened.drop 0)) bareEntry :=
    ⟨by decide +kernel, by decide +kernel, by decide +kernel, by rfl⟩
  have hoverruns : Overruns (written [bareEntry, putEntry]) 0 (Frame.payloadLength (Sample.overrun.drop 0)) := by
    decide +kernel
  exact ⟨fun h ↦ (hfails.mp h).1 hoverruns, hends.mpr hoverruns, by decide +kernel,
    fun h ↦ (hfails'.mp h).2 _ hmisread, (hanswers _).mpr hmisread⟩

end LogShipping.Worker
