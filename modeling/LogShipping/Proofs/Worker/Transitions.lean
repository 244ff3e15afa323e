import LogShipping.Proofs.Log.Chains
import LogShipping.Proofs.Queue.Transactions
import LogShipping.Worker.Step

/-!
# What a step of a worker changes

Of all that a worker works with, its position on the queue depends on its scene only: the database, the
log files, the schema, and which queue is its own. A step leaves the scene alone, unless it is one of
the three that move the queue's position; those are told apart here by their outcome. A worker with a
passage to ship keeps the passage until the peer has acknowledged it, or gives it up and starts anew.
-/

namespace LogShipping.Worker

/-- What the position on a queue depends on. -/
structure Scene where
  database : Database
  directory : Directory
  schema : Schema
  key : QueueKey

namespace Scene

/-- The scene after an operation on the queues. -/
def withQueues (scene : Scene) (queues : QueueTables) : Scene :=
  { scene with database := scene.database.withQueues queues }

end Scene

namespace Phase

/-- A worker in such a phase has nothing in hand. -/
def Free : Phase → Prop
  | ready | gated | loading | idle | pausing _ | stalled | stopped => True
  | _ => False

/-- The passage that is being shipped. -/
def passage? : Phase → Option Passage
  | shipping passage | awaitingTokens passage _ | awaitingPlace passage | calling passage
  | inFlight passage _ _ | backingOff passage _ => some passage
  | _ => none

end Phase

namespace Turn

variable {turn : Turn} {passage : Passage}

def scene (turn : Turn) : Scene :=
  ⟨turn.world.database, turn.world.directory, turn.world.schema, turn.worker.key⟩

/-! ## The step of a phase -/

theorem step_loading (h : turn.worker.phase = .loading) : step turn = turn.load := by
  unfold step
  rw [h]

theorem step_reading {file : FileRef} {offset : Nat} {hasNext : Bool}
    (h : turn.worker.phase = .reading file offset hasNext) :
    step turn = turn.read file offset hasNext := by
  unfold step
  rw [h]

theorem step_dropping (h : turn.worker.phase = .dropping) : step turn = turn.drop := by
  unfold step
  rw [h]

theorem step_advancing (h : turn.worker.phase = .advancing passage) :
    step turn = turn.advance passage := by
  unfold step
  rw [h]

theorem step_finishing {file : FileRef} (h : turn.worker.phase = .finishing file) :
    step turn = turn.finish file := by
  unfold step
  rw [h]

/-! ## Steps that leave the scene alone -/

section Frame

variable (turn : Turn)

@[simp] theorem scene_goTo (phase : Phase) : (turn.goTo phase).scene = turn.scene := rfl

@[simp] theorem phase_goTo (phase : Phase) : (turn.goTo phase).worker.phase = phase := rfl

@[simp] theorem scene_become (state : WorkerState) : (turn.become state).scene = turn.scene := rfl

@[simp] theorem scene_measure (measure : Measure) : (turn.measure measure).scene = turn.scene := rfl

@[simp] theorem scene_leavePlace : turn.leavePlace.scene = turn.scene := rfl

@[simp] theorem scene_abandonCall : turn.abandonCall.scene = turn.scene := by
  unfold abandonCall
  split
  case h_1 =>
    unfold Sink.abandon
    split <;> rfl
  case h_2 => rfl

@[simp] theorem scene_vanish : turn.vanish.scene = turn.scene := by
  rw [vanish, scene_goTo, scene_leavePlace, scene_abandonCall]

@[simp] theorem scene_stop : turn.stop.scene = turn.scene := by
  rw [stop, scene_become, scene_vanish]

@[simp] theorem scene_pause : turn.pause.scene = turn.scene := rfl

@[simp] theorem scene_closeCall (failed : Bool) : (turn.closeCall failed).scene = turn.scene := by
  unfold closeCall
  dsimp only
  split <;> rfl

@[simp] theorem scene_openCall : turn.openCall.2.scene = turn.scene := by
  unfold openCall
  dsimp only
  split <;> rfl

theorem worker_openCall : turn.openCall.2.worker = turn.worker := by
  unfold openCall
  dsimp only
  split <;> rfl

/-- What a sink does to the world does not reach the scene. -/
theorem scene_call (sink : Sink) (shipment : Shipment) :
    scene { turn with world := (sink.call turn.world shipment).2 } = turn.scene := by
  unfold Sink.call
  cases sink with
  | remote name =>
    dsimp only
    split <;> rfl
  | stream peerStream =>
    dsimp only
    split <;> rfl

theorem scene_poll (sink : Sink) (number : Nat) (shipment : Shipment) :
    scene { turn with world := (sink.poll turn.world number shipment).2 } = turn.scene := by
  unfold Sink.poll
  split <;> rfl

end Frame

/-! ## Shipping a passage -/

/-- The worker still has the passage to ship, or nothing in hand, and the scene is as before. -/
def Carries (turn after : Turn) (passage : Passage) : Prop :=
  after.scene = turn.scene ∧
    (after.worker.phase.passage? = some passage ∨ after.worker.phase.Free)

/-- The passage was shipped, and the scene is as before. -/
def Shipped (turn after : Turn) (passage : Passage) : Prop :=
  after.scene = turn.scene ∧ after.worker.phase = passage.afterShipping

/-- What leaves the scene alone may come before. -/
theorem Carries.of_scene_eq {after result : Turn} (h : after.Carries result passage)
    (hscene : after.scene = turn.scene) : turn.Carries result passage :=
  ⟨h.1.trans hscene, h.2⟩

theorem Shipped.of_scene_eq {after result : Turn} (h : after.Shipped result passage)
    (hscene : after.scene = turn.scene) : turn.Shipped result passage :=
  ⟨h.1.trans hscene, h.2⟩

theorem carries_stop (turn : Turn) (passage : Passage) : turn.Carries turn.stop passage :=
  ⟨scene_stop turn, .inr trivial⟩

theorem beginShipping_carries (turn : Turn) (passage : Passage) :
    turn.Carries (turn.beginShipping passage) passage := by
  unfold beginShipping
  split
  case isTrue => exact carries_stop turn passage
  case isFalse =>
    split
    case isTrue => exact ⟨rfl, .inl rfl⟩
    case isFalse => exact ⟨rfl, .inr trivial⟩

theorem takeToken_carries {count : Nat} (h : turn.worker.phase = .awaitingTokens passage count) :
    turn.Carries (turn.takeToken passage count) passage := by
  cases count with
  | zero => exact ⟨rfl, .inl rfl⟩
  | succ count =>
    rw [takeToken]
    split
    case isTrue => exact carries_stop turn passage
    case isFalse =>
      split
      case h_1 => exact ⟨rfl, .inl rfl⟩
      case h_2 =>
        split
        case h_1 => exact ⟨rfl, .inl (by rw [h]; rfl)⟩
        case h_2 => exact ⟨rfl, .inl rfl⟩

theorem takePlace_carries (h : turn.worker.phase = .awaitingPlace passage) :
    turn.Carries (turn.takePlace passage) passage := by
  unfold takePlace
  split
  case isTrue => exact carries_stop turn passage
  case isFalse =>
    dsimp only
    split
    case isTrue => exact ⟨rfl, .inl rfl⟩
    case isFalse => exact ⟨rfl, .inl (by rw [h]; rfl)⟩

theorem fail_carries (turn : Turn) (passage : Passage) (reason : String) :
    turn.Carries (turn.fail passage reason) passage := by
  unfold fail
  dsimp only
  split
  case h_1 => exact ⟨rfl, .inl rfl⟩
  case h_2 =>
    refine ⟨?_, .inr trivial⟩
    rw [scene_vanish]
    rfl

theorem conclude_ok (turn : Turn) (passage : Passage) (value : Unit) :
    turn.Shipped (turn.conclude passage (.ok value)) passage := by
  refine ⟨?_, rfl⟩
  calc (turn.conclude passage (.ok value)).scene
      = (turn.closeCall false).scene := rfl
    _ = turn.scene := scene_closeCall turn false

theorem conclude_error (turn : Turn) (passage : Passage) (error : Error) :
    turn.Carries (turn.conclude passage (.error error)) passage := by
  have hfail (reason : String) : turn.Carries ((turn.closeCall true).fail passage reason) passage :=
    (fail_carries (turn.closeCall true) passage reason).of_scene_eq (scene_closeCall turn true)
  unfold conclude
  split
  case h_1 h => cases h
  case h_2 => exact hfail "timeout"
  case h_3 => exact hfail "transport"

/-- The shipment that the next step acknowledges, if it is the one to learn of the peer's answer. -/
def acknowledges? (turn : Turn) : Option Shipment :=
  match turn.worker.phase with
  | .calling passage =>
    if turn.worker.dismissed || !turn.openCall.1 then none
    else
      match (turn.worker.sink.call turn.openCall.2.world passage.shipment).1 with
      | .answered (.ok _) => some passage.shipment
      | _ => none
  | .inFlight passage number _ =>
    if turn.worker.dismissed then none
    else
      match (turn.worker.sink.poll turn.world number passage.shipment).1 with
      | some (.ok _) => some passage.shipment
      | _ => none
  | _ => none

/-- The shipment that the next step hands to the sink, if it does so. -/
def sends? (turn : Turn) : Option Shipment :=
  match turn.worker.phase with
  | .calling passage =>
    if turn.worker.dismissed || !turn.openCall.1 then none else some passage.shipment
  | _ => none

theorem call_cases (h : turn.worker.phase = .calling passage) :
    turn.Carries (turn.call passage) passage ∨
      (turn.acknowledges? = some passage.shipment ∧ turn.Shipped (turn.call passage) passage) := by
  unfold call
  split
  case isTrue => exact .inl (carries_stop turn passage)
  case isFalse hdismissed =>
    have hscene := scene_openCall turn
    have hworker := worker_openCall turn
    split
    case h_1 after hopen =>
      rw [hopen] at hscene
      exact .inl ((fail_carries after passage "circuit_open").of_scene_eq hscene)
    case h_2 after hopen =>
      rw [hopen] at hscene hworker
      have hcalled := (scene_call after after.worker.sink passage.shipment).trans hscene
      dsimp only
      split
      case h_1 answer hanswer =>
        cases answer with
        | ok value =>
          have hshipped := conclude_ok
            { after with world := (after.worker.sink.call after.world passage.shipment).2 } passage value
          refine .inr ⟨?_, hshipped.of_scene_eq hcalled⟩
          rw [hworker] at hanswer
          simp [acknowledges?, h, hdismissed, hopen, hanswer]
        | error error =>
          have hcarries := conclude_error
            { after with world := (after.worker.sink.call after.world passage.shipment).2 } passage error
          exact .inl (hcarries.of_scene_eq hcalled)
      case h_2 => exact .inl ⟨hcalled, .inl rfl⟩

theorem await_cases {number deadline : Nat}
    (h : turn.worker.phase = .inFlight passage number deadline) :
    turn.Carries (turn.await passage number deadline) passage ∨
      (turn.acknowledges? = some passage.shipment ∧
        turn.Shipped (turn.await passage number deadline) passage) := by
  unfold await
  split
  case isTrue => exact .inl (carries_stop turn passage)
  case isFalse hdismissed =>
    have hpolled := scene_poll turn turn.worker.sink number passage.shipment
    split
    case h_1 answer world hpoll =>
      rw [hpoll] at hpolled
      cases answer with
      | ok value =>
        have hshipped := conclude_ok { turn with world } passage value
        refine .inr ⟨?_, hshipped.of_scene_eq hpolled⟩
        simp [acknowledges?, h, hdismissed, hpoll]
      | error error =>
        exact .inl ((conclude_error { turn with world } passage error).of_scene_eq hpolled)
    case h_2 =>
      split
      case isTrue =>
        have hcarries := conclude_error turn.abandonCall passage
          (.timeout ("ship to peer " ++ passage.shipment.peer)
            turn.facilities.settings.shipDeadline.milliseconds)
        exact .inl (hcarries.of_scene_eq (scene_abandonCall turn))
      case isFalse => exact .inl ⟨rfl, .inl (by rw [h]; rfl)⟩

/-- A worker with a passage to ship keeps it, gives it up, or learns that it was acknowledged. -/
theorem step_of_passage (h : turn.worker.phase.passage? = some passage) :
    turn.Carries (step turn) passage ∨
      (turn.acknowledges? = some passage.shipment ∧ turn.Shipped (step turn) passage) := by
  unfold step
  cases hphase : turn.worker.phase with
  | shipping other =>
    rw [hphase] at h
    cases h
    exact .inl (beginShipping_carries turn passage)
  | awaitingTokens other count =>
    rw [hphase] at h
    cases h
    exact .inl (takeToken_carries hphase)
  | awaitingPlace other =>
    rw [hphase] at h
    cases h
    exact .inl (takePlace_carries hphase)
  | calling other =>
    rw [hphase] at h
    cases h
    exact call_cases hphase
  | inFlight other number deadline =>
    rw [hphase] at h
    cases h
    exact await_cases hphase
  | backingOff other wake =>
    rw [hphase] at h
    cases h
    dsimp only
    split
    case isTrue => exact .inl (carries_stop turn passage)
    case isFalse =>
      split
      case isTrue => exact .inl ⟨rfl, .inl rfl⟩
      case isFalse => exact .inl ⟨rfl, .inl (by rw [hphase]; rfl)⟩
  | _ => rw [hphase] at h; cases h

/-! ## Loading and reading -/

/-- The worker has nothing in hand, and the scene is as before. -/
def Idles (turn after : Turn) : Prop := after.scene = turn.scene ∧ after.worker.phase.Free

theorem checkGate_idles (turn : Turn) : turn.Idles turn.checkGate := by
  unfold checkGate
  split
  case isTrue => exact ⟨scene_stop turn, trivial⟩
  case isFalse => split <;> exact ⟨rfl, trivial⟩

theorem load_cases (turn : Turn) :
    turn.Idles turn.load ∨
      ∃ queue, turn.world.database.queues.get? turn.worker.key = some queue ∧
        turn.load.scene = turn.scene ∧
        ((queue.head? = none ∧ turn.worker.key.isRecovered = true ∧
            turn.load.worker.phase = .dropping) ∨
          ∃ file, queue.head? = some file ∧
            turn.load.worker.phase = .reading file queue.offset queue.hasNext) := by
  unfold load
  dsimp only
  split
  case h_1 => exact .inl ⟨scene_pause turn, trivial⟩
  case h_2 => exact .inl ⟨by rw [scene_stop, scene_measure], trivial⟩
  case h_3 queue hquery =>
    have hqueue : turn.world.database.queues.get? turn.worker.key = some queue := by
      unfold Database.query at hquery
      split at hquery
      case isTrue => exact Except.ok.inj hquery
      case isFalse => cases hquery
    split
    case h_1 hempty =>
      by_cases hrecovered : turn.worker.key.isRecovered = true
      · exact .inr ⟨queue, hqueue, rfl, .inl ⟨hempty, hrecovered, by rw [if_pos hrecovered]; rfl⟩⟩
      · refine .inl ⟨rfl, ?_⟩
        rw [if_neg hrecovered]
        trivial
    case h_2 file hhead => exact .inr ⟨queue, hqueue, rfl, .inr ⟨file, hhead, rfl⟩⟩

theorem takeBatch_cases (turn : Turn) (file : FileRef) (closed hasNext : Bool) (batch : Batch) :
    (turn.takeBatch file closed hasNext batch).scene = turn.scene ∧
      ∃ passage : Passage, passage.shipment.entries = batch.entries ∧ passage.file = file ∧
        passage.start = batch.start ∧ passage.stop = batch.stop ∧
        (passage.finishable = true →
          batch.exhausted = true ∧ closed = true ∧
            (hasNext = true ∨ turn.worker.key.isRecovered = true)) ∧
        ((turn.takeBatch file closed hasNext batch).worker.phase = .shipping passage ∨
          (batch.entries = [] ∧
            (turn.takeBatch file closed hasNext batch).worker.phase = passage.afterShipping)) := by
  unfold takeBatch
  dsimp only
  refine ⟨by split <;> rfl, ?_⟩
  refine ⟨⟨⟨turn.worker.key.origin, turn.worker.key.peer, batch.entries⟩, file, batch.start, batch.stop,
    batch.exhausted && closed && (hasNext || turn.worker.key.isRecovered), batch.exhausted⟩,
    rfl, rfl, rfl, rfl, ?_, ?_⟩
  · intro hfinishable
    simpa only [Bool.and_eq_true, Bool.or_eq_true, and_assoc] using hfinishable
  · rw [phase_goTo]
    split
    case isTrue hempty => exact .inr ⟨List.isEmpty_iff.mp hempty, rfl⟩
    case isFalse => exact .inl rfl

/-- A worker that reads a file it finds pauses or gets hold of a passage. -/
theorem read_cases {file : FileRef} {content : Bytes} (offset : Nat) (hasNext : Bool)
    (hcontent : Log.content? turn.world.directory file = some content) :
    turn.Idles (turn.read file offset hasNext) ∨
      ∃ batch, (Batch.take (.file content) turn.world.schema turn.limits
          (Log.Reader.start file.path offset (turn.activeLength? file))).1 = .ok batch ∧
        turn.read file offset hasNext =
          turn.takeBatch file (turn.activeLength? file).isNone hasNext batch := by
  have hopen := Log.content?_eq_some_iff.mp hcontent
  unfold read
  dsimp only
  rw [Log.Reader.openAt, hopen]
  dsimp only
  split
  case h_1 hfault =>
    split at hfault
    case isTrue => cases hfault
    case isFalse => cases hfault
  case h_2 => exact .inl ⟨scene_pause turn, trivial⟩
  case h_3 reader source hopened =>
    split at hopened
    case isTrue => cases hopened
    case isFalse =>
      cases hopened
      split
      case h_1 batch htaken => exact .inr ⟨batch, htaken, rfl⟩
      case h_2 => exact .inl ⟨rfl, trivial⟩
      case h_3 => exact .inl ⟨scene_pause turn, trivial⟩

/-- Of a folder a worker reads nothing. -/
theorem takeBatch_of_empty {file : FileRef} {closed hasNext : Bool} {batch : Batch}
    (hentries : batch.entries = []) (hstop : batch.stop = batch.start)
    (hexhausted : closed = true → batch.exhausted = false) :
    turn.Idles (turn.takeBatch file closed hasNext batch) := by
  have hfinishable : (batch.exhausted && closed && (hasNext || turn.worker.key.isRecovered)) = false := by
    cases closed with
    | true => rw [hexhausted rfl]; rfl
    | false => rw [Bool.and_false]; rfl
  unfold takeBatch
  dsimp only
  rw [Batch.isEmpty, hentries, List.isEmpty_nil, if_pos rfl, hfinishable, Bool.and_false,
    if_neg Bool.false_ne_true, Passage.afterShipping, Passage.madeProgress, hstop]
  refine ⟨rfl, ?_⟩
  simp only [Nat.lt_irrefl, decide_false, Bool.false_eq_true, if_false, Passage.next]
  split <;> trivial

/-- A worker that finds no file where one is listed takes the file off, or does nothing for now. -/
theorem read_cases_of_missing {file : FileRef} (offset : Nat) (hasNext : Bool)
    (hmissing : Log.content? turn.world.directory file = none) :
    turn.Idles (turn.read file offset hasNext) ∨
      ((turn.read file offset hasNext).scene = turn.scene ∧
        (turn.read file offset hasNext).worker.phase = .finishing file) := by
  unfold read
  dsimp only
  cases hopen : turn.world.directory.open? file.path with
  | error fault =>
    rw [Log.Reader.openAt, hopen]
    cases fault with
    | notFound =>
      by_cases hclosed : (turn.activeLength? file).isNone = true
      case pos => exact .inr ⟨by simp only [hclosed]; rfl, by simp only [hclosed]; rfl⟩
      case neg => exact .inl ⟨by simp only [hclosed]; rfl, by simp only [hclosed]; trivial⟩
    | _ => exact .inl ⟨scene_pause turn, trivial⟩
  | ok source =>
    cases source with
    | file content =>
      rw [Log.content?, hopen] at hmissing
      cases hmissing
    | folder =>
      rw [Log.Reader.openAt, hopen]
      dsimp only
      split
      case h_1 hfault =>
        split at hfault
        case isTrue => cases hfault
        case isFalse => cases hfault
      case h_2 => exact .inl ⟨scene_pause turn, trivial⟩
      case h_3 reader source hopened =>
        split at hopened
        case isTrue => cases hopened
        case isFalse =>
          cases hopened
          split
          case h_1 batch htaken =>
            obtain ⟨hentries, hstop, hexhausted⟩ := Batch.take_folder htaken
            exact .inl (takeBatch_of_empty hentries hstop fun hclosed ↦
              hexhausted (Option.isNone_iff_eq_none.mp hclosed))
          case h_2 => exact .inl ⟨rfl, trivial⟩
          case h_3 => exact .inl ⟨scene_pause turn, trivial⟩

/-! ## Moving the position -/

/-- The shipment whose end the next step stores as the queue's position, if it does so. -/
def stores? (turn : Turn) : Option Shipment :=
  match turn.worker.phase with
  | .advancing passage =>
    match (turn.world.advance turn.worker.key passage.start passage.target).1 with
    | .ok _ => some passage.shipment
    | .error _ => none
  | _ => none

/-- The file that the next step takes off the queue, if it does so. -/
def finishes? (turn : Turn) : Option FileRef :=
  match turn.worker.phase with
  | .finishing file =>
    match (turn.world.finish turn.worker.key file.seq).1 with
    | .ok _ => some file
    | .error _ => none
  | _ => none

theorem afterQueue_error {α : Type} (turn : Turn) (phase : Phase) (error : Error) :
    turn.Idles (turn.afterQueue phase ((.error error, turn.world) : Outcome α × World)) := by
  unfold afterQueue
  dsimp only
  split
  case isTrue => exact ⟨scene_stop turn, trivial⟩
  case isFalse => exact ⟨scene_pause turn, trivial⟩

theorem advance_cases (h : turn.worker.phase = .advancing passage) :
    (∃ after, turn.world.database.queues.advance turn.worker.key passage.start passage.target =
        .ok after ∧
      turn.stores? = some passage.shipment ∧
      (turn.advance passage).scene = turn.scene.withQueues after ∧
      (turn.advance passage).worker.phase = passage.next) ∨
    (turn.stores? = none ∧ turn.Idles (turn.advance passage) ∧
      (turn.world.database.reachable = true → ∃ error,
        turn.world.database.queues.advance turn.worker.key passage.start passage.target =
          .error error)) := by
  unfold advance stores?
  rw [h]
  dsimp only
  rcases turn.world.advance_cases turn.worker.key passage.start passage.target with
    ⟨after, hok, hadvance⟩ | ⟨error, hadvance, hrefused⟩
  · rw [hadvance]
    exact .inl ⟨after, hok, rfl, rfl, rfl⟩
  · rw [hadvance]
    exact .inr ⟨rfl, afterQueue_error turn passage.next error, fun hup ↦ ⟨error, hrefused hup⟩⟩

theorem finish_cases {file : FileRef} (h : turn.worker.phase = .finishing file) :
    (∃ after, turn.world.database.queues.finish turn.worker.key file.seq = .ok after ∧
      turn.finishes? = some file ∧
      (turn.finish file).scene = turn.scene.withQueues after ∧
      (turn.finish file).worker.phase = .ready) ∨
    (turn.finishes? = none ∧ turn.Idles (turn.finish file) ∧
      (turn.world.database.reachable = true → ∃ error,
        turn.world.database.queues.finish turn.worker.key file.seq = .error error)) := by
  unfold finish finishes?
  rw [h]
  dsimp only
  rcases turn.world.finish_cases turn.worker.key file.seq with
    ⟨after, hok, hfinish⟩ | ⟨error, hfinish, hrefused⟩
  · rw [hfinish]
    exact .inl ⟨after, hok, rfl, rfl, rfl⟩
  · rw [hfinish]
    exact .inr ⟨rfl, afterQueue_error turn .ready error, fun hup ↦ ⟨error, hrefused hup⟩⟩

theorem drop_cases (turn : Turn) :
    (turn.drop.scene =
        turn.scene.withQueues (turn.world.database.queues.remove turn.worker.key) ∧
      turn.drop.worker.phase.Free) ∨
    turn.Idles turn.drop := by
  unfold drop
  rcases turn.world.dropQueue_cases turn.worker.key with ⟨feed, hdrop⟩ | ⟨error, hdrop, -⟩
  · rw [hdrop]
    refine .inl ⟨?_, trivial⟩
    dsimp only
    rw [scene_stop]
    rfl
  · rw [hdrop]
    exact .inr ⟨scene_pause turn, trivial⟩

/-! ## Having nothing in hand -/

/-- A worker with nothing in hand gets nothing in hand but by loading its queue. -/
theorem step_of_free (h : turn.worker.phase.Free) (hloading : turn.worker.phase ≠ .loading) :
    turn.Idles (step turn) := by
  unfold step
  cases hphase : turn.worker.phase with
  | ready => exact checkGate_idles turn
  | gated => exact checkGate_idles turn
  | loading => exact absurd hphase hloading
  | idle =>
    dsimp only
    split
    case isTrue => exact ⟨rfl, trivial⟩
    case isFalse => exact ⟨rfl, h⟩
  | pausing wake =>
    dsimp only
    split
    case isTrue => exact ⟨scene_stop turn, trivial⟩
    case isFalse =>
      split
      case isTrue => exact ⟨rfl, trivial⟩
      case isFalse => exact ⟨rfl, h⟩
  | stalled =>
    dsimp only
    split
    case isTrue => exact ⟨scene_stop turn, trivial⟩
    case isFalse => exact ⟨rfl, h⟩
  | stopped => exact ⟨rfl, h⟩
  | _ => rw [hphase] at h; exact h.elim

/-- A worker with nothing in hand leaves the scene alone. -/
theorem scene_step_of_free (h : turn.worker.phase.Free) : (step turn).scene = turn.scene := by
  by_cases hloading : turn.worker.phase = .loading
  · rw [step_loading hloading]
    rcases load_cases turn with hidles | ⟨queue, -, hscene, -⟩
    · exact hidles.1
    · exact hscene
  · exact (step_of_free h hloading).1

end Turn

end LogShipping.Worker
