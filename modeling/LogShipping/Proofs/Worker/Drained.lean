import LogShipping.Proofs.Settings.Backoff
import LogShipping.Proofs.Worker.Draining
import LogShipping.Proofs.Worker.Ticking

/-!
# The end of recovered queues

A course on a recovered queue comes to an end: the worker has stopped, the queue is gone, and what was acknowledged
is, record by record, what the filter leaves of the files from the queue's offset on. A node's own queue, whose
last file is still being written, never loses that file.
-/

namespace LogShipping.Worker

open Log QueueTables

/-! ## What others do to a recovered queue -/

namespace Elsewhere

variable {finished : List FileRef} {before after : Scene}

theorem listed_eq (h : Elsewhere finished before after) (hrecovered : before.key.isRecovered = true) :
    after.listed = before.listed := by
  obtain ⟨added, hlisted, hnone, -⟩ := h.listed_append
  rw [hlisted, hnone hrecovered, List.append_nil]

theorem queue_eq (h : Elsewhere finished before after) (hrecovered : before.key.isRecovered = true) :
    after.queue? = before.queue? := by
  have hlisted : after.database.queues.filesOf after.key = before.database.queues.filesOf before.key :=
    h.listed_eq hrecovered
  rw [Scene.queue?, Scene.queue?, get?, get?, h.offset_eq, hlisted, h.key]

theorem stays (h : Elsewhere finished before after) (hrecovered : before.key.isRecovered = true) {file : FileRef}
    (hfile : file ∈ finished ++ before.listed) : Stays before.directory after.directory file :=
  h.closed file ((List.mem_append.mp hfile).imp_right fun hlisted ↦ ⟨hlisted, .inl hrecovered⟩)

theorem left_eq (h : Elsewhere finished before after) (hrecovered : before.key.isRecovered = true) :
    after.left = before.left := by
  have hremaining {files : List FileRef} (hfiles : ∀ file ∈ files, file ∈ before.listed) (offset : Nat) :
      remaining after.directory files offset = remaining before.directory files offset := by
    induction files generalizing offset with
    | nil => rfl
    | cons file later ih =>
      have hcontent : content? after.directory file = content? before.directory file :=
        h.stays hrecovered (List.mem_append_right _ (hfiles file List.mem_cons_self))
      rw [remaining, remaining, extent, extent, hcontent,
        ih fun other hother ↦ hfiles other (List.mem_cons_of_mem _ hother)]
  unfold Scene.left
  rw [h.queue_eq hrecovered]
  cases hqueue : before.queue? with
  | none => rfl
  | some queue =>
    obtain ⟨offset, -, rfl⟩ := get?_eq_some_iff.mp hqueue
    exact hremaining (fun _ hfile ↦ hfile) offset

end Elsewhere

/-! ## Along a course -/

/-- A course on a recovered queue whose files hold whole records. -/
structure Recovering (files : List FileRef) (start : Nat) (schema : Schema) (original : Directory)
    (course : Nat → Journal) : Prop where
  unhindered : Unhindered course
  stays : (course 0).turn.worker.dismissed = false
  faithful : ∀ n, Faithful files start schema (course n)
  recovered : ∀ n, (course n).turn.worker.key.isRecovered = true
  admits : ∀ n, (course n).turn.limits.Admits
  fits : ∀ file ∈ files, extent original file + Reader.block ≤ Reader.maxOffset
  opening : Untouched files original (course 0) ∧ (course 0).turn.Bound ∧ Tallies (course 0)

namespace Recovering

variable {files : List FileRef} {start : Nat} {schema : Schema} {original : Directory} {course : Nat → Journal}
  (h : Recovering files start schema original course)

include h

theorem untouched (n : Nat) : Untouched files original (course n) := by
  induction n with
  | zero => exact h.opening.1
  | succ n ih =>
    rcases h.unhindered.next_cases n with hworks | ⟨world, shared, helse, -, hnext⟩
    · rw [show course (n + 1) = (course n).work from hworks]
      refine ⟨(h.faithful n).together_work.trans ih.together, fun file hfile ↦ ?_⟩
      show Stays original (step (course n).turn).world.directory file
      rw [Turn.directory_step]
      exact ih.stays file hfile
    · have hlisted := helse.listed_eq (h.recovered n)
      rw [hnext]
      refine ⟨?_, fun file hfile ↦ ?_⟩
      · show (course n).finished ++ ((course n).turn.elsewhere world shared).scene.listed = files
        rw [hlisted]
        exact ih.together
      · have hstays := helse.stays (h.recovered n) (ih.together.symm ▸ hfile)
        exact hstays.trans (ih.stays file hfile)

theorem left_le {n m : Nat} (hle : n ≤ m) : (course m).scene.left ≤ (course n).scene.left := by
  induction hle with
  | refl => exact Nat.le_refl _
  | @step m _ ih =>
    refine Nat.le_trans ?_ ih
    rcases h.unhindered.next_cases m with hworks | ⟨world, shared, helse, -, hnext⟩
    · rw [Nat.succ_eq_add_one, show course (m + 1) = (course m).work from hworks]
      exact Turn.left_step_le (h.faithful m).ledger.wellFormed
    · rw [Nat.succ_eq_add_one, hnext]
      exact Nat.le_of_eq (helse.left_eq (h.recovered m))

/-- A worker that is gone leaves its queue as it was. -/
theorem queue_of_stopped {n m : Nat} (hle : n ≤ m) (hstopped : (course n).turn.worker.phase = .stopped) :
    (course m).scene.queue? = (course n).scene.queue? := by
  induction hle with
  | refl => rfl
  | @step m hle ih =>
    rcases h.unhindered.next_cases m with hworks | ⟨world, shared, helse, -, hnext⟩
    · have hrests : step (course m).turn = (course m).turn := by
        unfold step
        rw [h.unhindered.worker_of_stopped hle hstopped, hstopped]
      rw [Nat.succ_eq_add_one, Journal.scene, Unhindered.turn_of_works hworks, hrests]
      exact ih
    · rw [Nat.succ_eq_add_one, hnext]
      exact (helse.queue_eq (h.recovered m)).trans ih

/-- Once a wait fits no duration the worker is gone, and its queue is still there. -/
theorem kept_of_overflows {n m : Nat} (hoverflows : Overflows course n) (hlater : n < m) :
    (course m).turn.worker.phase = .stopped ∧ ∃ queue, (course m).scene.queue? = some queue := by
  obtain ⟨hworks, hlong⟩ := hoverflows
  have hstays : (course n).turn.worker.dismissed = false := (h.unhindered.base_eq n).1.trans h.stays
  obtain ⟨⟨passage, hpassage⟩, hstopped⟩ := Turn.step_of_overflows hstays hlong
  rw [← Unhindered.turn_of_works hworks] at hstopped
  refine ⟨by rw [h.unhindered.worker_of_stopped hlater hstopped, hstopped], ?_⟩
  have hscene : (course (n + 1)).scene = (course n).scene := by
    rw [Journal.scene, Unhindered.turn_of_works hworks]
    rcases Turn.step_of_passage hpassage with ⟨hscene, -⟩ | ⟨-, hscene, -⟩
    · exact hscene
    · exact hscene
  obtain ⟨-, hoffset⟩ := Scene.position?_eq_some_iff.mp ((h.faithful n).inHand.fits hpassage).position
  rw [h.queue_of_stopped hlater hstopped, hscene]
  exact ⟨_, get?_eq_some_iff.mpr ⟨_, hoffset, rfl⟩⟩

section Patient

variable (hpatient : ∀ n, ¬Overflows course n)

include hpatient

theorem able {n : Nat} (hworks : Works course n) : (course n).turn.Able :=
  h.unhindered.able h.stays hworks (hpatient n)

theorem drains {n : Nat} (hworks : Works course n) (hbound : (course n).turn.Bound) : (course n).turn.Drains := by
  have huntouched := h.untouched n
  refine (h.faithful n).drains hbound (h.able hpatient hworks) (h.recovered n) (h.admits n) fun file hlisted ↦ ?_
  have hfile : file ∈ files := huntouched.together ▸ List.mem_append_right _ hlisted
  have hcontent : content? (course n).scene.directory file = content? original file := huntouched.stays file hfile
  rw [extent, hcontent]
  exact h.fits file hfile

theorem bound_and_tallies (n : Nat) : (course n).turn.Bound ∧ Tallies (course n) := by
  induction n with
  | zero => exact h.opening.2
  | succ n ih =>
    obtain ⟨hbound, htallies⟩ := ih
    rcases h.unhindered.next_cases n with hworks | ⟨world, shared, helse, -, hnext⟩
    · have hdrains := h.drains hpatient hworks hbound
      rw [show course (n + 1) = (course n).work from hworks]
      exact ⟨hdrains.bound hbound, htallies.work hdrains⟩
    · have hqueue := helse.queue_eq (h.recovered n)
      rw [hnext]
      exact ⟨⟨hbound.busy, hbound.hand, fun hnot ↦ hqueue ▸ hbound.present hnot,
        fun hstopped ↦ ⟨(hbound.gone hstopped).1, hqueue ▸ (hbound.gone hstopped).2⟩⟩, htallies⟩

/-- Some time less lies ahead of a worker that has not stopped. -/
theorem ahead_lt {n : Nat} (hworking : (course n).turn.worker.phase ≠ .stopped) :
    Comes course n fun turn ↦ turn.ahead < (course n).turn.ahead := by
  have hbound (m : Nat) := (h.bound_and_tallies hpatient m).1
  cases hpassage : (course n).turn.worker.phase.passage? with
  | some passage =>
    obtain ⟨m, hle, hdone⟩ := h.unhindered.arrives (fun _ hworks ↦ h.able hpatient hworks) hpassage
    have honward := (hbound n).hand passage (Phase.hand?_of_passage hpassage)
    have hleft := h.left_le hle
    refine ⟨m, hle, ?_⟩
    show (course m).turn.ahead < (course n).turn.ahead
    unfold Turn.ahead
    rw [hdone.trans honward.afterShipping_eq, Phase.distance_of_passage hpassage]
    show 7 * (course m).scene.left + 2 < 7 * (course n).scene.left + 3
    omega
  | none =>
    refine h.unhindered.comes (P := fun turn ↦ turn.worker.phase = (course n).turn.worker.phase) 0
      (fun _ _ _ hthere ↦ hthere) (fun m hle hworks hthere ↦ .inr ?_) rfl
    have hleft := h.left_le hle
    have hstep := Turn.left_step_le (h.faithful m).ledger.wellFormed
    have hless := (h.drains hpatient hworks (hbound m)).ahead_lt (hthere ▸ hpassage) (hthere ▸ hworking) hstep
    refine Nat.lt_of_lt_of_le hless ?_
    unfold Turn.ahead
    rw [hthere]
    exact Nat.add_le_add_right (Nat.mul_le_mul_left 7 hleft) _

theorem stops_from (n : Nat) : Comes course n fun turn ↦ turn.worker.phase = .stopped := by
  induction hahead : (course n).turn.ahead using Nat.strongRecOn generalizing n with
  | ind ahead ih =>
    by_cases hstopped : (course n).turn.worker.phase = .stopped
    case pos => exact ⟨n, Nat.le_refl n, hstopped⟩
    case neg => exact (h.ahead_lt hpatient hstopped).trans fun middle _ hless ↦ ih _ (hahead ▸ hless) middle rfl

end Patient

end Recovering

/-! ## Drained queues -/

/-- The worker has stopped, the queue is gone, every file was taken off, and of the records from the queue's
offset to the end of the last file all that the filter leaves was acknowledged, each record once and in order. -/
structure Drained (queue : Queue) (world : World) (journal : Journal) : Prop where
  phase : journal.turn.worker.phase = .stopped
  state : journal.turn.worker.state = .stopped
  gone : journal.scene.queue? = none
  finished : journal.finished = queue.files
  acknowledged : journal.acknowledged.flatMap (·.entries) =
    (recorded world.directory queue.files queue.offset).filterMap (Entry.filter world.schema)

namespace Recovering

variable {queue : Queue} {world : World} {course : Nat → Journal}
  (h : Recovering queue.files queue.offset world.schema world.directory course)

include h

theorem drained (hpatient : ∀ n, ¬Overflows course n) {n : Nat}
    (hstopped : (course n).turn.worker.phase = .stopped) : Drained queue world (course n) := by
  obtain ⟨hbound, htallies⟩ := h.bound_and_tallies hpatient n
  obtain ⟨htogether, hstays⟩ := h.untouched n
  obtain ⟨hstate, hgone⟩ := hbound.gone hstopped
  have hledger := (h.faithful n).ledger
  have hlisted : (course n).scene.listed = [] := by
    cases hfiles : (course n).scene.listed with
    | nil => rfl
    | cons file later =>
      obtain ⟨offset, hoffset⟩ := Scene.offset_of_listed hledger.wellFormed (by rw [hfiles]; rfl)
      have hthere : (course n).scene.queue? = some _ := get?_eq_some_iff.mpr ⟨offset, hoffset, rfl⟩
      cases hgone.symm.trans hthere
  rw [hlisted, List.append_nil] at htogether
  refine ⟨hstopped, hstate, hgone, htogether, ?_⟩
  obtain ⟨covered, hpassed, hstored⟩ := hledger.passed
  rw [Scene.position?_eq_none_of_empty hlisted, htogether] at hpassed
  unfold Tallies at htallies
  rw [htallies, hstopped, hstored, hpassed.eq_recorded, recorded_congr hstays, (h.faithful n).fixed]
  exact List.append_nil _

/-- The queue is drained if and only if no wait is too long. -/
theorem drained_iff : (∃ n, ∀ m, n ≤ m → Drained queue world (course m)) ↔ ∀ n, ¬Overflows course n := by
  constructor
  · rintro ⟨n, hdrained⟩ k hoverflows
    obtain ⟨-, rest, hrest⟩ := h.kept_of_overflows hoverflows (show k < max n (k + 1) by omega)
    cases (hdrained _ (Nat.le_max_left n (k + 1))).gone.symm.trans hrest
  · intro hpatient
    obtain ⟨n, -, hstopped⟩ := h.stops_from hpatient 0
    refine ⟨n, fun m hle ↦ h.drained hpatient ?_⟩
    rw [h.unhindered.worker_of_stopped hle hstopped, hstopped]

end Recovering

/-! ## A node's own queue -/

/-- On every run the workers of a queue work on it and no other. -/
theorem Journal.key_of_leads {journal after : Journal} (hleads : journal.Leads after) :
    after.scene.key = journal.scene.key := by
  induction hleads with
  | refl => rfl
  | @tail before after _ hmoves ih =>
    refine Eq.trans ?_ ih
    cases hmoves with
    | work => exact congrArg (·.assignment.key) (Turn.post_step before.turn)
    | dismiss | respawn => rfl
    | wake =>
      show before.turn.worker.wake.key = before.turn.worker.key
      unfold Worker.wake
      split <;> rfl
    | elsewhere world facilities helse => exact helse.key

/-- On every run a node's own queue keeps a file once it has one. -/
theorem Faithful.keeps_file {files : List FileRef} {start : Nat} {schema : Schema} {journal : Journal}
    (h : Faithful files start schema journal) (hown : journal.scene.key.isRecovered = false) (hsome : files ≠ []) :
    ∃ queue, journal.scene.queue? = some queue ∧ queue.files ≠ [] := by
  cases hlisted : journal.scene.listed with
  | nil =>
    obtain ⟨added, hfiles⟩ := h.ledger.listed
    have hfinished : journal.finished = [] :=
      (h.ledger.unfinished hlisted).resolve_left fun hrecovered ↦ by cases hown.symm.trans hrecovered
    rw [hlisted, hfinished] at hfiles
    exact absurd (List.append_eq_nil_iff.mp hfiles.symm).1 hsome
  | cons file later =>
    obtain ⟨offset, hoffset⟩ := Scene.offset_of_listed h.ledger.wellFormed (by rw [hlisted]; rfl)
    have hfiles : (journal.scene.database.queues.filesOf journal.scene.key) = file :: later := hlisted
    exact ⟨_, get?_eq_some_iff.mpr ⟨offset, hoffset, rfl⟩, by rw [hfiles]; exact List.cons_ne_nil file later⟩

/-! ## Both kinds of queues -/

/-- If the longest wait fits a duration, every wait does. -/
theorem backoff?_isSome {settings : SourceSettings}
    (h : (settings.retrySleep.times? (max settings.maxRetriesMultiplier 1)).isSome = true) (failures : Nat) :
    (settings.backoff? failures).isSome = true := by
  obtain ⟨longest, hlongest⟩ := Option.isSome_iff_exists.mp h
  have hfits := (Duration.fit?_eq_some_iff.mp hlongest).1
  rw [Nat.max_comm] at hfits
  have hle := Nat.mul_le_mul_left settings.retrySleep (settings.multiplier_le failures)
  exact Option.isSome_iff_exists.mpr
    ⟨_, SourceSettings.backoff?_eq_some_iff.mpr ⟨Nat.lt_of_le_of_lt hle hfits, rfl⟩⟩

section Opening

variable {world : World} {facilities : Facilities} {key : QueueKey} {sink : Sink} {circuit : Nat} {gate : Gate}
  {queue : Queue}

/-- A course begins with a new worker of a recovered queue. -/
theorem recovering_of_unhindered (hreach : world.database.queues.Reachable)
    (hqueue : world.database.queues.get? key = some queue)
    (hwhole : Whole world.directory queue.files queue.offset)
    (hfits : ∀ file ∈ queue.files, extent world.directory file + Reader.block ≤ Reader.maxOffset)
    (hsize : 0 < facilities.settings.sizeCapacity) (hcount : 0 < facilities.settings.countCapacity)
    (hrecovered : key.isRecovered = true) {course : Nat → Journal}
    (hopening : course 0 = .opening ⟨world, facilities, .create key sink circuit gate⟩)
    (h : Unhindered course) : Recovering queue.files queue.offset world.schema world.directory course := by
  have hturn : (course 0).turn = ⟨world, facilities, .create key sink circuit gate⟩ := by rw [hopening]; rfl
  have hfaithful (n : Nat) : Faithful queue.files queue.offset world.schema (course n) := by
    have hfirst : Faithful queue.files queue.offset world.schema (course 0) := by
      rw [hopening]
      exact faithful_opening trivial hreach hqueue hwhole
    exact hfirst.leads (h.leads n)
  constructor
  case unhindered => exact h
  case stays => rw [hturn]; rfl
  case faithful => exact hfaithful
  case recovered =>
    intro n
    rw [(h.base_eq n).2.1, hturn]
    exact hrecovered
  case admits =>
    intro n
    have hsettings : (course n).turn.facilities.settings = facilities.settings :=
      (h.base_eq n).2.2.trans (by rw [hturn]; rfl)
    rw [Turn.limits, hsettings]
    exact ⟨hsize, hcount⟩
  case fits => exact hfits
  case opening =>
    obtain ⟨offset, hoffset, rfl⟩ := get?_eq_some_iff.mp hqueue
    rw [hopening]
    refine ⟨⟨rfl, fun _ _ ↦ rfl⟩, ⟨trivial, ?_, fun _ ↦ ⟨_, hqueue⟩, ?_⟩, rfl⟩
    · rintro passage ⟨⟩
    · rintro ⟨⟩

/-- A recovered queue whose files hold whole records is drained by a worker that nobody disturbs and whose limits
admit an entry, if and only if the worker never has to wait for longer than any duration: then it stops, the queue
is gone, and what was acknowledged is just what the filter leaves of its records. There is no such wait if the
longest one of the settings fits a duration. A node's own queue keeps a file on every run. -/
theorem drained_iff_or_kept (hreach : world.database.queues.Reachable)
    (hqueue : world.database.queues.get? key = some queue)
    (hwhole : Whole world.directory queue.files queue.offset)
    (hfits : ∀ file ∈ queue.files, extent world.directory file + Reader.block ≤ Reader.maxOffset)
    (hsize : 0 < facilities.settings.sizeCapacity) (hcount : 0 < facilities.settings.countCapacity) :
    (key.isRecovered = true → ∀ course : Nat → Journal,
      course 0 = .opening ⟨world, facilities, .create key sink circuit gate⟩ → Unhindered course →
        ((∃ n, ∀ m, n ≤ m → Drained queue world (course m)) ↔ ∀ n, ¬Overflows course n) ∧
        ((facilities.settings.retrySleep.times? (max facilities.settings.maxRetriesMultiplier 1)).isSome = true →
          ∀ n, ¬Overflows course n)) ∧
    (key.isRecovered = false → queue.files ≠ [] → ∀ journal : Journal,
      (Journal.opening ⟨world, facilities, .create key sink circuit gate⟩).Leads journal →
        ∃ now, journal.scene.queue? = some now ∧ now.files ≠ []) := by
  constructor
  · intro hrecovered course hopening h
    refine ⟨(recovering_of_unhindered hreach hqueue hwhole hfits hsize hcount hrecovered hopening h).drained_iff,
      fun hlongest n ⟨_, hoverflows⟩ ↦ ?_⟩
    have hsettings : (course n).turn.settings = facilities.settings :=
      (h.base_eq n).2.2.trans (by rw [hopening]; rfl)
    have hfits := backoff?_isSome hlongest ((course n).turn.worker.failures + 1)
    rw [Turn.overflows, Bool.and_eq_true, hsettings, Option.isNone_iff_eq_none] at hoverflows
    rw [hoverflows.2] at hfits
    cases hfits
  · intro hown hsome journal hleads
    have hfirst := @faithful_opening _ facilities (.create key sink circuit gate) _ trivial hreach hqueue hwhole
    refine (hfirst.leads hleads).keeps_file ?_ hsome
    rw [Journal.key_of_leads hleads]
    exact hown

end Opening

namespace Sample

/-- A queue lists the log, and the peer answers the next calls as it is laid down. -/
def failing (script : List Remote.Behaviour) (key : QueueKey) : World :=
  { world with
    database := { Database.empty with queues := .run .empty [.create key (some (⟨1, "w"⟩, 0))] }
    remotes := [{ Remote.create "p" with script }] }

/-- A new worker of that queue. -/
def starting (settings : SourceSettings) (script : List Remote.Behaviour) (key : QueueKey) : Journal :=
  .opening ⟨failing script key, { facilities with settings }, .create key (.remote "p") 0 ⟨"p", 0⟩⟩

/-- The peer lets two calls fail, and the sleep between them is the longest that can be written in seconds. -/
def drowsing : Nat → Journal :=
  (starting SourceSettings.Sample.drowsy [.fail, .fail] key).ticking Duration.bound

theorem whole_log : Whole world.directory [⟨1, "w"⟩] 0 := by
  have hrecords : Records record [entry] := by
    refine records_cons_iff.mpr ⟨record.drop 8, 42, by decide +kernel, rfl, ?_⟩
    exact records_nil_iff.mpr rfl
  constructor
  · rintro _ ⟨⟩
    exact ⟨record, [entry], by decide +kernel, by decide, hrecords⟩
  · rintro file ⟨⟩

theorem log_fits (file : FileRef) (hfile : file ∈ [⟨1, "w"⟩]) :
    extent world.directory file + Reader.block ≤ Reader.maxOffset := by
  rw [List.mem_singleton.mp hfile]
  decide +kernel

theorem queue_failing (script : List Remote.Behaviour) :
    (failing script key).database.queues.get? key = some ⟨key, [⟨1, "w"⟩], 0⟩ := by
  have hqueue : (QueueTables.run .empty [.create key (some (⟨1, "w"⟩, 0))]).get? key =
      some ⟨key, [⟨1, "w"⟩], 0⟩ := by decide +kernel
  exact hqueue

theorem unhindered_starting (settings : SourceSettings) (script : List Remote.Behaviour) {pace : Duration}
    (hpace : 0 < pace) : Unhindered ((starting settings script key).ticking pace) := by
  refine unhindered_ticking hpace ⟨_, rfl⟩ (queue_failing script) whole_log ?_
  refine ⟨rfl, ?_, rfl, rfl, rfl, ⟨Nat.one_pos, rfl, fun other hother ↦ ?_⟩⟩
  · have hopen : world.registry.replicating && world.registry.isOpen ⟨"p", 0⟩ = true := by decide +kernel
    exact hopen
  · cases hother

end Sample

/-- The queue that was recovered from node a is drained after the first call has failed. Node b's own queue keeps
the file. -/
theorem drained_after_failure :
    (∃ n, ∀ m, n ≤ m → Drained ⟨Sample.key, [⟨1, "w"⟩], 0⟩ (Sample.failing [.fail] Sample.key)
      ((Sample.starting .standard [.fail] Sample.key).ticking Duration.second m)) ∧
    ∃ now, (Nat.repeat Journal.work 12 (Sample.starting .standard [.fail] (.own "b" "p"))).scene.queue? = some now ∧
      now.files ≠ [] := by
  constructor
  · have hcourse := (drained_iff_or_kept ⟨_, rfl⟩ (Sample.queue_failing [.fail]) Sample.whole_log Sample.log_fits
      (by decide) (by decide)).1 (by decide) _ rfl
      (Sample.unhindered_starting .standard [.fail] (by decide : 0 < Duration.second))
    exact hcourse.1.mpr (hcourse.2 (by decide +kernel))
  · have hqueue : (Sample.failing [.fail] (.own "b" "p")).database.queues.get? (.own "b" "p") =
        some ⟨.own "b" "p", [⟨1, "w"⟩], 0⟩ := by decide +kernel
    exact (drained_iff_or_kept ⟨_, rfl⟩ hqueue Sample.whole_log Sample.log_fits (by decide) (by decide)).2
      (by decide) (List.cons_ne_nil _ _) _ (Journal.leads_repeat _ 12)

/-- After the second failure the wait is longer than any duration, and the worker is gone. The queue is not drained
then, although nobody has disturbed the worker. -/
theorem not_drained_drowsing :
    Unhindered Sample.drowsing ∧ Overflows Sample.drowsing 22 ∧
      ¬∃ n, ∀ m, n ≤ m → Drained ⟨Sample.key, [⟨1, "w"⟩], 0⟩ (Sample.failing [.fail, .fail] Sample.key)
        (Sample.drowsing m) := by
  have hunhindered : Unhindered Sample.drowsing :=
    Sample.unhindered_starting SourceSettings.Sample.drowsy [.fail, .fail] (by decide : 0 < Duration.bound)
  have hoverflows : Overflows Sample.drowsing 22 := ⟨Journal.works_ticking rfl, by decide +kernel⟩
  have hrecovering := recovering_of_unhindered ⟨_, rfl⟩ (Sample.queue_failing [.fail, .fail]) Sample.whole_log
    Sample.log_fits (by decide) (by decide) (by decide) rfl hunhindered
  exact ⟨hunhindered, hoverflows, fun hdrained ↦ hrecovering.drained_iff.mp hdrained 22 hoverflows⟩

end LogShipping.Worker
