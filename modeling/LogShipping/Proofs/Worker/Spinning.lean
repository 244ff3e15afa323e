import LogShipping.Proofs.Json.Documents
import LogShipping.Proofs.Worker.Gates
import LogShipping.Proofs.Worker.Pace

/-!
# Workers that go on without end

A worker that goes on at once behind a pass should have got somewhere, or else it asks the database and opens
its file over and over again. It has moved the position of its queue, or taken a file off, or the gate was shut
in front of it, in all cases but one. If the limits of a batch admit no entry, it reads nothing and goes on at
once all the same.

What lies ahead of a queue bounds how often the first two can happen, so with the gate open and nothing written
a worker goes on at once only so often; the bound is one more for what it had in hand to begin with. With limits
that admit no entry there is no bound, and nothing is ever shipped.
-/

namespace LogShipping.Worker

open Log

/-! ## What a pass was good for -/

namespace Turn

variable {turn after : Turn}

/-- A step behind which the worker may go on at once. -/
inductive Accounts (turn : Turn) : Prop
  /-- The queue stands at the end of the passage now, farther on than where the passage begins. -/
  | moved {passage : Passage} {queue : Queue} (hphase : turn.worker.phase = .advancing passage)
      (hforward : passage.start < passage.stop) (hqueue : turn.scene.queue? = some queue)
      (hstood : queue.offset = passage.start ∨ queue.offset = passage.stop)
      (hstands : (step turn).scene.queue? = some { queue with offset := passage.stop })
  /-- The first file was taken off the queue. -/
  | finished {file : FileRef} (hfinishes : turn.finishes? = some file)
  /-- The worker has found the gate shut, and gives its batch up. -/
  | gaveWay {passage : Passage} (hphase : turn.worker.phase = .shipping passage) (hshut : turn.gateOpen = false)

theorem Barred.continues (h : turn.Barred) : turn.Continues := by
  obtain ⟨-, file, offset, hasNext, -, hphase, -⟩ := id h
  exact (continues_iff_barred hphase).mpr h

theorem Barred.not_accounts (h : turn.Barred) : ¬turn.Accounts := by
  obtain ⟨-, file, offset, hasNext, -, hphase, -⟩ := h
  intro haccounts
  cases haccounts with
  | moved hother => cases hphase.symm.trans hother
  | finished hfinishes =>
    rw [finishes?, hphase] at hfinishes
    cases hfinishes
  | gaveWay hother => cases hphase.symm.trans hother

/-- Moving the position leaves the queue with its files, at the end of the passage. -/
theorem queue_of_advance {passage : Passage} {queues : QueueTables}
    (hok : turn.tables.advance turn.worker.key passage.start passage.target = .ok queues) :
    ∃ queue, turn.scene.queue? = some queue ∧
      (queue.offset = passage.stop ∨ (queue.offset = passage.start ∧ queue.offset < passage.stop)) ∧
      (turn.scene.withQueues queues).queue? = some { queue with offset := passage.stop } := by
  obtain ⟨queue, hqueue, -, hmoved⟩ := QueueTables.get?_of_advance hok
  obtain ⟨-, current, hcurrent, hway⟩ := QueueTables.advance_eq_ok_iff.mp hok
  obtain ⟨offset, hoffset, rfl⟩ := QueueTables.get?_eq_some_iff.mp hqueue
  obtain rfl := Option.some.inj (hcurrent.symm.trans hoffset)
  refine ⟨_, hqueue, ?_, hmoved⟩
  rcases hway with ⟨hsame, -⟩ | ⟨hlt, hstart, -⟩
  · exact .inl hsame.symm
  · exact .inr ⟨hstart.symm, hlt⟩

/-- If what is in hand leads on, a worker goes on at once for a reason, or for its limits. -/
theorem accounts_of_continues
    (hforward : ∀ passage, turn.worker.phase.hand? = some passage → passage.start < passage.stop)
    (h : turn.Continues) : turn.Accounts ∨ turn.Barred := by
  rcases continues_cases h with hbarred | ⟨passage, hphase, hshut⟩ | ⟨passage, hhand, hback⟩ |
    ⟨passage, queues, hphase, hok, hscene⟩ | ⟨file, queues, -, hfinishes, -⟩
  · exact .inr hbarred
  · exact .inl (.gaveWay hphase hshut)
  · exact absurd (hforward passage hhand) (Nat.not_lt.mpr hback)
  · obtain ⟨queue, hqueue, hstood, hstands⟩ := queue_of_advance hok
    refine .inl (.moved hphase (hforward passage (by rw [hphase]; rfl)) hqueue ?_ (hscene ▸ hstands))
    exact hstood.symm.imp_left And.left
  · exact .inl (.finished hfinishes)

end Turn

/-- Along every run what the worker has in hand leads on. -/
theorem Watch.forward_of_leads {world : World} {facilities : Facilities} {key : QueueKey} {sink : Sink}
    {circuit : Nat} {gate : Gate} {watch : Watch}
    (hleads : (opening world facilities key sink circuit gate).Leads watch) :
    ∀ passage, watch.turn.worker.phase.hand? = some passage → passage.start < passage.stop := by
  induction hleads with
  | refl => nofun
  | @tail before after _ hmove ih =>
    intro passage hhand
    cases hmove with
    | work =>
      change (step before.turn).worker.phase.hand? = some passage at hhand
      cases before.turn.handles_step with
      | nothing hlight => cases hlight.hand?_eq_none.symm.trans hhand
      | begins _ hphase =>
        rw [hphase] at hhand
        cases hhand
      | gets _ _ hgot hspans => exact Option.some.inj (hgot.symm.trans hhand) ▸ hspans.forward
      | keeps _ hbefore hafter => exact Option.some.inj (hafter.symm.trans hhand) ▸ ih _ hbefore
    | dismiss | elsewhere => exact ih passage hhand
    | wake =>
      change before.turn.worker.wake.phase.hand? = some passage at hhand
      unfold Worker.wake at hhand
      split at hhand
      case isTrue => cases hhand
      case isFalse => exact ih passage hhand
    | stop => cases hhand

/-! ## What lies ahead -/

/-- What lies ahead of a queue that stands at an offset of the first of these files: each file is to be taken
off, and each octet to be passed. -/
def remaining (directory : Directory) : List FileRef → (offset : Nat) → Nat
  | [], _ => 0
  | file :: later, offset => 1 + (extent directory file - offset) + remaining directory later 0

theorem remaining_le {directory : Directory} {files : List FileRef} {offset farther : Nat}
    (hle : offset ≤ farther) : remaining directory files farther ≤ remaining directory files offset := by
  cases files with
  | nil => exact Nat.le_refl _
  | cons file later =>
    rw [remaining, remaining]
    omega

theorem remaining_lt {directory : Directory} {file : FileRef} {later : List FileRef} {offset farther : Nat}
    (hlt : offset < farther) (hinside : farther ≤ extent directory file) :
    remaining directory (file :: later) farther < remaining directory (file :: later) offset := by
  rw [remaining, remaining]
  omega

def Scene.left (scene : Scene) : Nat :=
  scene.queue?.elim 0 fun queue ↦ remaining scene.directory queue.files queue.offset

theorem Scene.left_eq {scene : Scene} {queue : Queue} (h : scene.queue? = some queue) :
    scene.left = remaining scene.directory queue.files queue.offset := by
  rw [Scene.left, h]
  rfl

namespace Turn

variable {turn after : Turn}

/-- What the worker is about to read or has in hand begins where the queue stands. -/
structure Suits (turn : Turn) : Prop where
  reading : ∀ file offset hasNext, turn.worker.phase = .reading file offset hasNext →
    turn.scene.position? = some (file, offset)
  hand : ∀ passage, turn.worker.phase.hand? = some passage →
    ∃ file offset, turn.scene.position? = some (file, offset) ∧ passage.Spans turn.scene.directory file offset

theorem suits_of_light (h : turn.worker.phase.Light) : turn.Suits where
  reading file offset hasNext hphase := by
    rw [hphase] at h
    exact h.elim
  hand passage hhand := by cases h.hand?_eq_none.symm.trans hhand

theorem Suits.step (h : turn.Suits) : (step turn).Suits := by
  cases turn.handles_step with
  | nothing hlight => exact suits_of_light hlight
  | begins hscene hphase hposition =>
    constructor
    case reading =>
      intro file offset hasNext hother
      cases hphase.symm.trans hother
      exact hscene ▸ hposition
    case hand =>
      intro passage hhand
      rw [hphase] at hhand
      cases hhand
  | gets hscene hphase hhand hspans =>
    constructor
    case reading =>
      intro file offset hasNext hother
      rw [hother] at hhand
      cases hhand
    case hand =>
      intro passage hother
      obtain rfl := Option.some.inj (hhand.symm.trans hother)
      rw [hscene]
      exact ⟨_, _, h.reading _ _ _ hphase, hspans⟩
  | keeps hscene hbefore hafter =>
    constructor
    case reading =>
      intro file offset hasNext hother
      rw [hother] at hafter
      cases hafter
    case hand =>
      intro passage hother
      obtain rfl := Option.some.inj (hafter.symm.trans hother)
      rw [hscene]
      exact h.hand _ hbefore

/-- Moving the position leaves less ahead, or as much. -/
theorem left_advance_le {passage : Passage} {queues : QueueTables}
    (hok : turn.tables.advance turn.worker.key passage.start passage.target = .ok queues) :
    (turn.scene.withQueues queues).left ≤ turn.scene.left := by
  obtain ⟨queue, hqueue, hstood, hstands⟩ := queue_of_advance hok
  rw [Scene.left_eq hqueue, Scene.left_eq hstands]
  exact remaining_le (hstood.elim Nat.le_of_eq fun h ↦ Nat.le_of_lt h.2)

/-- Moving the position behind a passage that was read from there leaves less ahead. -/
theorem left_advance_lt {passage : Passage} {queues : QueueTables} {file : FileRef} {offset : Nat}
    (hposition : turn.scene.position? = some (file, offset))
    (hspans : passage.Spans turn.scene.directory file offset)
    (hok : turn.tables.advance turn.worker.key passage.start passage.target = .ok queues) :
    (turn.scene.withQueues queues).left < turn.scene.left := by
  obtain ⟨⟨key, files, current⟩, hqueue, -, hstands⟩ := queue_of_advance hok
  rw [Scene.position?, hqueue, Option.bind_some] at hposition
  obtain ⟨head, hhead, hplace⟩ := Option.map_eq_some_iff.mp hposition
  cases hplace
  obtain ⟨later, rfl⟩ := List.head?_eq_some_iff.mp hhead
  rw [Scene.left_eq hqueue, Scene.left_eq hstands]
  exact remaining_lt (hspans.start_eq ▸ hspans.forward) (hspans.file_eq ▸ hspans.inside)

/-- Taking a file off leaves less ahead. -/
theorem left_finish_lt (wf : turn.tables.WellFormed) {file : FileRef} {queues : QueueTables}
    (hok : turn.tables.finish turn.worker.key file.seq = .ok queues) :
    (turn.scene.withQueues queues).left < turn.scene.left := by
  obtain ⟨head, later, offset, hqueue, -, hfinished⟩ := QueueTables.get?_of_finish wf hok
  have hbefore : turn.scene.queue? = some ⟨turn.worker.key, head :: later, offset⟩ := hqueue
  have hafter : (turn.scene.withQueues queues).queue? = some ⟨turn.worker.key, later, 0⟩ := hfinished
  rw [Scene.left_eq hbefore, Scene.left_eq hafter, remaining]
  exact Nat.lt_add_of_pos_left (Nat.add_pos_left Nat.one_pos _)

theorem left_step_le (wf : turn.tables.WellFormed) : (step turn).scene.left ≤ turn.scene.left := by
  rcases turn.scene_step_cases with ⟨hscene, -⟩ | ⟨passage, queues, -, hok, hscene, -⟩ |
    ⟨file, queues, -, hok, hscene, -⟩ | ⟨-, hscene⟩
  · exact Nat.le_of_eq (congrArg Scene.left hscene)
  · exact hscene ▸ left_advance_le hok
  · exact hscene ▸ Nat.le_of_lt (left_finish_lt wf hok)
  · have hgone : (turn.scene.withQueues (turn.tables.remove turn.worker.key)).queue? = none := by
      show ((turn.tables.remove turn.worker.key).offset? turn.worker.key).map _ = none
      rw [QueueTables.offset?_remove, if_pos rfl]
      rfl
    rw [hscene, Scene.left, hgone]
    exact Nat.zero_le _

/-- With the gate open and limits that admit an entry, a worker that goes on at once has less ahead of it. -/
theorem left_step_lt (wf : turn.tables.WellFormed) (hsuits : turn.Suits) (hadmits : turn.limits.Admits)
    (hopen : turn.gateOpen = true) (h : turn.Continues) : (step turn).scene.left < turn.scene.left := by
  rcases continues_cases h with hbarred | ⟨passage, -, hshut⟩ | ⟨passage, hhand, hback⟩ |
    ⟨passage, queues, hphase, hok, hscene⟩ | ⟨file, queues, -, -, hok, hscene⟩
  · exact absurd hadmits hbarred.1
  · cases hopen.symm.trans hshut
  · obtain ⟨_, _, -, hspans⟩ := hsuits.hand passage hhand
    exact absurd hspans.forward (Nat.not_lt.mpr hback)
  · obtain ⟨file, offset, hposition, hspans⟩ := hsuits.hand passage (by rw [hphase]; rfl)
    exact hscene ▸ left_advance_lt hposition hspans hok
  · exact hscene ▸ left_finish_lt wf hok

/-! ## Runs with the gate open -/

/-- Others leave the worker's queue, the files and the settings as they are. -/
structure Calm (turn : Turn) (world : World) (facilities : Facilities) : Prop where
  directory : world.directory = turn.world.directory
  queue : world.database.queues.get? turn.worker.key = turn.scene.queue?
  wellFormed : world.database.queues.WellFormed
  settings : facilities.settings = turn.settings

/-- A run of a worker with the gate open, its queue and the files left to it, and how often it goes on at
once. -/
inductive Spins (turn : Turn) : (count : Nat) → Turn → Prop
  | refl : Spins turn 0 turn
  | work {count : Nat} {middle : Turn} (h : Spins turn count middle) (hopen : middle.gateOpen = true) :
      Spins turn (if middle.Continues then count + 1 else count) (step middle)
  | dismiss {count : Nat} {middle : Turn} (h : Spins turn count middle) :
      Spins turn count { middle with worker := { middle.worker with dismissed := true } }
  | wake {count : Nat} {middle : Turn} (h : Spins turn count middle) :
      Spins turn count { middle with worker := middle.worker.wake }
  | elsewhere {count : Nat} {middle : Turn} (h : Spins turn count middle) {world : World}
      {facilities : Facilities} (hcalm : middle.Calm world facilities) :
      Spins turn count ⟨world, facilities, middle.worker⟩

/-- What a run so far has cost of what lay ahead. What the worker had in hand at first may be out of date, and
then it may go on at once for it without getting anywhere, once. -/
structure Spent (turn : Turn) (count : Nat) (after : Turn) : Prop where
  limits : after.limits = turn.limits
  wellFormed : after.tables.WellFormed
  bound : count + after.scene.left ≤ turn.scene.left + 1
  owed : ¬after.Suits → count + after.scene.left ≤ turn.scene.left

theorem limits_step (turn : Turn) : (step turn).limits = turn.limits := by
  have hsettings := turn.settings_step
  unfold settings at hsettings
  rw [limits, hsettings, limits]

theorem wellFormed_step (wf : turn.tables.WellFormed) : (step turn).tables.WellFormed := by
  rcases turn.tables_step with hsame | ⟨operation, -, -, hok⟩
  · exact hsame ▸ wf
  · exact wf.perform operation hok

namespace Spent

variable {count : Nat}

theorem work (h : turn.Spent count after) (hadmits : turn.limits.Admits) (hopen : after.gateOpen = true) :
    turn.Spent (if after.Continues then count + 1 else count) (step after) := by
  have hle := left_step_le h.wellFormed
  have hbound := h.bound
  refine ⟨(limits_step after).trans h.limits, wellFormed_step h.wellFormed, ?_, fun hnot ↦ ?_⟩
  case refine_1 =>
    by_cases hcontinues : after.Continues
    case neg =>
      rw [if_neg hcontinues]
      omega
    case pos =>
      rw [if_pos hcontinues]
      by_cases hsuits : after.Suits
      case pos =>
        have hlt := left_step_lt h.wellFormed hsuits (h.limits ▸ hadmits) hopen hcontinues
        omega
      case neg =>
        have howed := h.owed hsuits
        omega
  case refine_2 =>
    -- What does not suit the queue now did not before, and is still in hand.
    have hcontinues : ¬after.Continues := fun hcontinues ↦
      hnot (suits_of_light (by rw [hcontinues.2]; trivial))
    have howed := h.owed fun hsuits ↦ hnot hsuits.step
    rw [if_neg hcontinues]
    omega

/-- What changes neither the scene nor what suits it costs nothing. -/
theorem same (h : turn.Spent count after) {later : Turn} (hlimits : later.limits = after.limits)
    (hwellFormed : later.tables.WellFormed) (hleft : later.scene.left = after.scene.left)
    (hsuits : after.Suits → later.Suits) : turn.Spent count later where
  limits := hlimits.trans h.limits
  wellFormed := hwellFormed
  bound := hleft ▸ h.bound
  owed hnot := hleft ▸ h.owed fun hsuited ↦ hnot (hsuits hsuited)

theorem wake (h : turn.Spent count after) :
    turn.Spent count { after with worker := after.worker.wake } := by
  have hwake : after.worker.wake = after.worker ∨ after.worker.wake = { after.worker with phase := .ready } := by
    unfold Worker.wake
    split
    case isTrue => exact .inr rfl
    case isFalse => exact .inl rfl
  rcases hwake with hsame | hready
  · rw [hsame]
    exact h
  · rw [hready]
    exact h.same rfl h.wellFormed rfl fun _ ↦ suits_of_light trivial

theorem elsewhere (h : turn.Spent count after) {world : World} {facilities : Facilities}
    (hcalm : after.Calm world facilities) : turn.Spent count ⟨world, facilities, after.worker⟩ := by
  have hqueue : Scene.queue? (Turn.scene ⟨world, facilities, after.worker⟩) = after.scene.queue? := hcalm.queue
  have hdirectory : Scene.directory (Turn.scene ⟨world, facilities, after.worker⟩) = after.scene.directory :=
    hcalm.directory
  have hposition : Scene.position? (Turn.scene ⟨world, facilities, after.worker⟩) = after.scene.position? := by
    rw [Scene.position?, hqueue, Scene.position?]
  refine h.same ?_ hcalm.wellFormed ?_ fun hsuits ↦ ⟨?_, ?_⟩
  · have hsettings : facilities.settings = after.facilities.settings := hcalm.settings
    rw [Turn.limits, Turn.limits, hsettings]
  · rw [Scene.left, hqueue, hdirectory, Scene.left]
  · rw [hposition]
    exact hsuits.reading
  · rw [hposition, hdirectory]
    exact hsuits.hand

end Spent

theorem Spins.spent {count : Nat} (h : turn.Spins count after) (wf : turn.tables.WellFormed)
    (hadmits : turn.limits.Admits) : turn.Spent count after := by
  induction h with
  | refl => exact ⟨rfl, wf, by omega, fun _ ↦ Nat.le_of_eq (Nat.zero_add _)⟩
  | work _ hopen ih => exact ih.work hadmits hopen
  | dismiss _ ih => exact ih.same rfl ih.wellFormed rfl fun hsuits ↦ ⟨hsuits.reading, hsuits.hand⟩
  | wake _ ih => exact ih.wake
  | elsewhere _ hcalm ih => exact ih.elsewhere hcalm

/-! ## Limits that admit no entry -/

/-- The worker is about to look at the gate, which is open, and there is a file on its queue that it can open. -/
structure Poised (turn : Turn) : Prop where
  ready : turn.worker.phase = .ready
  stays : turn.worker.dismissed = false
  opened : turn.gateOpen = true
  reachable : turn.world.database.reachable = true
  file : ∃ file offset source, turn.scene.position? = some (file, offset) ∧
    turn.world.directory.open? file.path = .ok source ∧ offset ≤ Reader.maxOffset

theorem mustStop_of_gateOpen (hstays : turn.worker.dismissed = false) (hopen : turn.gateOpen = true) :
    turn.mustStop = false := by
  rw [gateOpen, Registry.isOpen, Bool.and_eq_true, Bool.and_eq_true] at hopen
  rw [mustStop, hstays, hopen.2.1]
  rfl

/-- The turn after one round, in which nothing was read: a reading without entries was counted, and the worker
has taken down the number of the files and the position. -/
def wasted (turn : Turn) (files : Nat) (position : LogPosition) : Turn where
  world := turn.world.measure (.editsRead turn.worker.key.peer 0 0)
  facilities := turn.facilities
  worker := { turn.worker with phase := .ready, state := .reading, files, position }

namespace Poised

theorem round (h : turn.Poised) (hbarred : ¬turn.limits.Admits) :
    (step turn).worker.phase = .loading ∧ (step (step turn)).Barred ∧
      ∃ files position, step (step (step turn)) = turn.wasted files position := by
  obtain ⟨file, _, source, hposition, hopen, hoffset⟩ := h.file
  obtain ⟨⟨key, files, offset⟩, hqueue, hplace⟩ := Option.bind_eq_some_iff.mp hposition
  obtain ⟨_, hhead, hsame⟩ := Option.map_eq_some_iff.mp hplace
  cases hsame
  have hready : step turn = (turn.goTo .loading).become .reading := by
    unfold step
    rw [h.ready]
    dsimp only
    rw [checkGate, mustStop_of_gateOpen h.stays h.opened, if_neg Bool.false_ne_true, if_pos h.opened]
  have hquery : turn.world.database.query (·.get? turn.worker.key) = .ok (some ⟨key, files, offset⟩) := by
    rw [Database.query, if_pos h.reachable]
    exact congrArg Except.ok hqueue
  have hload : step (step turn) = { step turn with worker := { (step turn).worker with
      files := files.length
      position := ⟨file.seq, offset⟩
      phase := .reading file offset (Queue.hasNext ⟨key, files, offset⟩) } } := by
    rw [step_loading (congrArg (·.worker.phase) hready), hready, load]
    dsimp only [goTo, become]
    rw [hquery]
    dsimp only
    rw [hhead]
  have hphase : (step (step turn)).worker.phase =
      .reading file offset (Queue.hasNext ⟨key, files, offset⟩) := congrArg (·.worker.phase) hload
  have hlimits : (step (step turn)).limits = turn.limits := by rw [limits_step, limits_step]
  have hdirectory : (step (step turn)).world.directory = turn.world.directory := by rw [hload, hready]; rfl
  refine ⟨congrArg (·.worker.phase) hready, ⟨hlimits ▸ hbarred, file, offset, _, source, hphase, ?_, hoffset⟩,
    files.length, ⟨file.seq, offset⟩, ?_⟩
  · rw [hdirectory]
    exact hopen
  · rw [step_reading hphase, read_of_not_admits (hdirectory ▸ hopen) hoffset (hlimits ▸ hbarred), hload, hready]
    rfl

theorem wasted (h : turn.Poised) (files : Nat) (position : LogPosition) :
    (turn.wasted files position).Poised :=
  ⟨rfl, h.stays, h.opened, h.reachable, h.file⟩

end Poised

theorem Poised.spins_round (h : after.Poised) (hbarred : ¬after.limits.Admits) {count : Nat}
    (hspins : turn.Spins count after) : turn.Spins (count + 1) (step (step (step after))) := by
  obtain ⟨hloading, hround, -⟩ := h.round hbarred
  have hopen (turn : Turn) (hopen : turn.gateOpen = true) : (step turn).gateOpen = true :=
    (clearance_eq_full_iff _).mp (turn.clearance_step.trans ((clearance_eq_full_iff _).mpr hopen))
  have hfirst := hspins.work h.opened
  rw [if_neg fun hcontinues ↦ by rw [Continues, h.ready] at hcontinues; cases hcontinues.1] at hfirst
  have hsecond := hfirst.work (hopen _ h.opened)
  have hreading : ¬(step after).Continues := by
    obtain ⟨-, _, _, _, _, hphase, -⟩ := hround
    rintro ⟨-, hready⟩
    cases hready.symm.trans hphase
  rw [if_neg hreading] at hsecond
  have hthird := hsecond.work (hopen _ (hopen _ h.opened))
  rw [if_pos hround.continues] at hthird
  exact hthird

/-- Round after round the worker goes on at once, and everything stays as it is. -/
theorem Poised.spins (h : turn.Poised) (hbarred : ¬turn.limits.Admits) (count : Nat) :
    turn.Spins count (Nat.repeat step (3 * count) turn) ∧ (Nat.repeat step (3 * count) turn).Poised ∧
      (Nat.repeat step (3 * count) turn).limits = turn.limits ∧
      (Nat.repeat step (3 * count) turn).scene = turn.scene := by
  induction count with
  | zero => exact ⟨.refl, h, rfl, rfl⟩
  | succ count ih =>
    show turn.Spins (count + 1) (step (step (step (Nat.repeat step (3 * count) turn)))) ∧ _
    generalize hmiddle : Nat.repeat step (3 * count) turn = middle at ih
    obtain ⟨hspins, hpoised, hlimits, hscene⟩ := ih
    have hround : Nat.repeat step (3 * (count + 1)) turn = step (step (step middle)) := by rw [← hmiddle]; rfl
    have hbarred' : ¬middle.limits.Admits := hlimits ▸ hbarred
    obtain ⟨-, -, files, position, hwasted⟩ := hpoised.round hbarred'
    have hagain := hpoised.spins_round hbarred' hspins
    rw [hround]
    refine ⟨hagain, ?_, ?_, ?_⟩
    · rw [hwasted]
      exact hpoised.wasted files position
    · rw [hwasted]
      exact hlimits
    · rw [hwasted]
      exact hscene

end Turn

/-! ## Going on at once -/

/-- On every run a worker goes on at once behind a pass for a reason, unless its limits admit no entry and it
has read nothing. If they admit one, what lies ahead bounds how often it does so with the gate open and its queue
and the files left to it. If they do not, it does so without end behind an open gate as soon as there is a file to
open on its queue, and its queue stands where it stood. -/
theorem Watch.accounts_unless_barred {world : World} {facilities : Facilities} {key : QueueKey} {sink : Sink}
    {circuit : Nat} {gate : Gate} {watch : Watch}
    (hleads : (opening world facilities key sink circuit gate).Leads watch)
    (wf : watch.turn.tables.WellFormed) :
    (watch.turn.Continues ∧ ¬watch.turn.Accounts ↔ watch.turn.Barred) ∧
    (watch.turn.limits.Admits → ∀ count after, watch.turn.Spins count after →
      count ≤ watch.turn.scene.left + 1) ∧
    (¬watch.turn.limits.Admits → watch.turn.Poised → ∀ count,
      watch.turn.Spins count (Nat.repeat step (3 * count) watch.turn) ∧
        (Nat.repeat step (3 * count) watch.turn).scene = watch.turn.scene) := by
  refine ⟨⟨?_, fun hbarred ↦ ⟨hbarred.continues, hbarred.not_accounts⟩⟩, ?_, ?_⟩
  · rintro ⟨hcontinues, hnot⟩
    exact (Turn.accounts_of_continues (forward_of_leads hleads) hcontinues).resolve_left hnot
  · intro hadmits count after hspins
    exact Nat.le_trans (Nat.le_add_right _ _) (hspins.spent wf hadmits).bound
  · intro hbarred hpoised count
    obtain ⟨hspins, -, -, hscene⟩ := hpoised.spins hbarred count
    exact ⟨hspins, hscene⟩

namespace Sample

def begun (shared : Facilities) : Watch := .opening world shared key (.remote "p") 0 ⟨"p", 0⟩

/-- The settings of a node that lets a batch hold no entry. -/
def zeroCapacity : Json :=
  .object [("local_node_id", .text "b"), ("settings", .object [("source", .object [("nb_capacity", .nat 0)])])]

/-- What a node reads from a text of the settings of its workers. -/
def workerSettings? (text : Bytes) : Option SourceSettings :=
  ((Json.read? text).bind NodeSettings.ofJson?).map (·.settings.source)

def zeroSettings : SourceSettings := { SourceSettings.standard with countCapacity := 0 }

theorem workerSettings?_zeroCapacity : workerSettings? zeroCapacity.write = some zeroSettings := by
  have hsource : Json.Plain (.object [("nb_capacity", .nat 0)]) := by
    refine .object _ fun member hmember ↦ ?_
    rw [List.mem_singleton.mp hmember]
    exact .integer false 0
  have hsettings : Json.Plain (.object [("source", .object [("nb_capacity", .nat 0)])]) := by
    refine .object _ fun member hmember ↦ ?_
    rw [List.mem_singleton.mp hmember]
    exact hsource
  have hplain : Json.Plain zeroCapacity := by
    refine .object _ fun member hmember ↦ ?_
    rcases List.mem_cons.mp hmember with rfl | hlast
    · exact .text "b"
    · rw [List.mem_singleton.mp hlast]
      exact hsettings
  rw [workerSettings?, Json.read?_write hplain]
  decide +kernel

theorem wellFormed_begun (shared : Facilities) : (begun shared).turn.tables.WellFormed :=
  QueueTables.Reachable.wellFormed ⟨_, rfl⟩

theorem position_begun (shared : Facilities) : (begun shared).turn.scene.position? = some (⟨1, "w"⟩, 0) := by
  show (begun facilities).turn.scene.position? = _
  decide +kernel

theorem poised_begun (shared : Facilities) : (begun shared).turn.Poised where
  ready := rfl
  stays := rfl
  opened := by
    show (begun facilities).turn.gateOpen = true
    decide +kernel
  reachable := rfl
  file := by
    have hcontent : content? world.directory ⟨1, "w"⟩ = some record := by decide +kernel
    exact ⟨⟨1, "w"⟩, 0, .file record, position_begun shared, content?_eq_some_iff.mp hcontent, Nat.zero_le _⟩

theorem not_admits_begun : ¬(begun { facilities with settings := zeroSettings }).turn.limits.Admits := by
  decide +kernel

end Sample

theorem Watch.accounts_unless_barred_begun :
    (∀ count after, (Sample.begun Sample.facilities).turn.Spins count after → count ≤ 44) ∧
      (Sample.begun { Sample.facilities with settings := Sample.zeroSettings }).work.work.turn.Continues ∧
      ¬(Sample.begun { Sample.facilities with settings := Sample.zeroSettings }).work.work.turn.Accounts := by
  constructor
  · have hleft : (Sample.begun Sample.facilities).turn.scene.left + 1 = 44 := by decide +kernel
    rw [← hleft]
    exact (accounts_unless_barred .refl (Sample.wellFormed_begun _)).2.1 (by decide +kernel)
  · have hpoised := Sample.poised_begun { Sample.facilities with settings := Sample.zeroSettings }
    have hleads : (Sample.begun { Sample.facilities with settings := Sample.zeroSettings }).Leads
        (work (work (Sample.begun { Sample.facilities with settings := Sample.zeroSettings }))) :=
      leads_repeat _ 2
    refine (accounts_unless_barred hleads ?_).1.mpr (hpoised.round Sample.not_admits_begun).2.1
    exact Turn.wellFormed_step (Turn.wellFormed_step (Sample.wellFormed_begun _))

/-- Settings that are read from a text without complaint let a worker go on at once without end, with nothing
moved and nothing taken off, behind an open gate. -/
theorem Watch.spins_on_zero_capacity :
    ∃ settings, Sample.workerSettings? Sample.zeroCapacity.write = some settings ∧
      (∃ watch, (Sample.begun { Sample.facilities with settings }).Leads watch ∧ watch.turn.Continues ∧
        ¬watch.turn.Accounts ∧ watch.turn.gateOpen = true) ∧
      ∀ count, ∃ after, (Sample.begun { Sample.facilities with settings }).turn.Spins count after ∧
        after.scene.position? = some (⟨1, "w"⟩, 0) := by
  have hpoised := Sample.poised_begun { Sample.facilities with settings := Sample.zeroSettings }
  have hbarred := (hpoised.round Sample.not_admits_begun).2.1
  refine ⟨_, Sample.workerSettings?_zeroCapacity, ⟨_, leads_repeat _ 2, hbarred.continues, hbarred.not_accounts, ?_⟩,
    fun count ↦ ?_⟩
  · decide +kernel
  · obtain ⟨hspins, -, -, hscene⟩ := hpoised.spins Sample.not_admits_begun count
    refine ⟨_, hspins, ?_⟩
    rw [hscene]
    exact Sample.position_begun _

end LogShipping.Worker
