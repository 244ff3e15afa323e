import LogShipping.Proofs.Queue.Calls
import LogShipping.Worker.Step

/-!
# What a worker never changes

A worker keeps the queue, the sink and the gate it was created with, and neither the peer registry, the peer
table nor the storages are touched by what it does. A worker that has finished stays as it is.
-/

namespace LogShipping

/-! ## The roster -/

/-- The peer registry and the peer table. -/
structure Roster where
  registry : Registry
  peers : List Peer

namespace World

variable (world : World) (key : QueueKey)

def roster (world : World) : Roster := ⟨world.registry, world.database.peers⟩

@[simp] theorem roster_createQueue (seed : Option (FileRef × Nat)) :
    (world.createQueue key seed).2.roster = world.roster :=
  congrArg (Roster.mk _) (QueueStore.peers_serve world.database (.create key seed))

@[simp] theorem roster_enqueue (file : FileRef) : (world.enqueue key file).2.roster = world.roster :=
  congrArg (Roster.mk _) (QueueStore.peers_serve world.database (.enqueue key file))

@[simp] theorem roster_advance (start : Nat) (target : LogPosition) :
    (world.advance key start target).2.roster = world.roster :=
  congrArg (Roster.mk _) (QueueStore.peers_serve world.database (.advance key start target))

@[simp] theorem roster_finish (seq : UInt64) : (world.finish key seq).2.roster = world.roster :=
  congrArg (Roster.mk _) (QueueStore.peers_serve world.database (.finish key seq))

@[simp] theorem roster_dropQueue : (world.dropQueue key).2.roster = world.roster :=
  congrArg (Roster.mk _) (QueueStore.peers_serve world.database (.drop key))

end World

/-! ## Posts -/

namespace Worker

/-- The queue a worker ships, where it ships it to, and the registration it works for. -/
structure Assignment where
  key : QueueKey
  sink : Sink
  gate : Gate

def assignment (worker : Worker) : Assignment := ⟨worker.key, worker.sink, worker.gate⟩

structure Post where
  roster : Roster
  assignment : Assignment

/-- What a worker leaves as it is: its post, the node it belongs to with its settings, every node's storage, the
clock, whether it was told to stop, and how many tokens the limiter gathers. -/
structure Base where
  post : Post
  station : String
  settings : SourceSettings
  storages : List (String × Storage)
  now : Nat
  dismissed : Bool
  burst? : Option Nat

namespace Turn

def post (turn : Turn) : Post := ⟨turn.world.roster, turn.worker.assignment⟩

/-- The node whose workers share the facilities. -/
def station (turn : Turn) : String := turn.facilities.node

def storages (turn : Turn) : List (String × Storage) := turn.world.storages

def settings (turn : Turn) : SourceSettings := turn.facilities.settings

/-- The tokens that the limiter gathers, if there is a limiter. -/
def burst? (turn : Turn) : Option Nat := turn.facilities.limiter.map (·.burst)

def base (turn : Turn) : Base where
  post := turn.post
  station := turn.station
  settings := turn.settings
  storages := turn.storages
  now := turn.world.now
  dismissed := turn.worker.dismissed
  burst? := turn.burst?

section Frame

variable (turn : Turn) (passage : Passage)

theorem base_of_world {world : World} (hroster : world.roster = turn.world.roster)
    (hstorages : world.storages = turn.world.storages) (hnow : world.now = turn.world.now) :
    base { turn with world } = turn.base := by
  unfold base post storages
  dsimp only
  rw [hroster, hstorages, hnow]
  rfl

@[simp] theorem base_goTo (phase : Phase) : (turn.goTo phase).base = turn.base := rfl

@[simp] theorem base_abandonCall : turn.abandonCall.base = turn.base := by
  unfold abandonCall
  split
  case h_1 =>
    unfold Sink.abandon
    split <;> rfl
  case h_2 => rfl

@[simp] theorem base_vanish : turn.vanish.base = turn.base := base_abandonCall turn

@[simp] theorem base_stop : turn.stop.base = turn.base := base_vanish turn

@[simp] theorem base_closeCall (failed : Bool) : (turn.closeCall failed).base = turn.base := by
  unfold closeCall
  dsimp only
  split <;> rfl

@[simp] theorem base_openCall : turn.openCall.2.base = turn.base := by
  unfold openCall
  dsimp only
  split <;> rfl

/-- A sink reaches the remote clusters only. -/
@[simp] theorem base_callSink (sink : Sink) (shipment : Shipment) :
    base { turn with world := (sink.call turn.world shipment).2 } = turn.base := by
  unfold Sink.call
  split
  case h_1 =>
    dsimp only
    split <;> rfl
  case h_2 => split <;> rfl

@[simp] theorem base_pollSink (sink : Sink) (number : Nat) (shipment : Shipment) :
    base { turn with world := (sink.poll turn.world number shipment).2 } = turn.base := by
  unfold Sink.poll
  split <;> rfl

/-! ## Each step -/

theorem base_checkGate : turn.checkGate.base = turn.base := by
  unfold checkGate
  split
  case isTrue => exact base_stop turn
  case isFalse => split <;> rfl

theorem base_load : turn.load.base = turn.base := by
  unfold load
  dsimp only
  split
  case h_1 => rfl
  case h_2 => exact base_stop _
  case h_3 => split <;> rfl

theorem base_takeBatch (file : FileRef) (closed hasNext : Bool) (batch : Batch) :
    (turn.takeBatch file closed hasNext batch).base = turn.base := by
  unfold takeBatch
  dsimp only
  rw [base_goTo]
  split <;> rfl

theorem base_read (file : FileRef) (offset : Nat) (hasNext : Bool) :
    (turn.read file offset hasNext).base = turn.base := by
  unfold read
  dsimp only
  split
  case h_1 => split <;> rfl
  case h_2 => rfl
  case h_3 =>
    split
    case h_1 => exact base_takeBatch turn _ _ _ _
    case h_2 => rfl
    case h_3 => rfl

theorem base_beginShipping : (turn.beginShipping passage).base = turn.base := by
  unfold beginShipping
  split
  case isTrue => exact base_stop turn
  case isFalse => split <;> rfl

theorem base_takeToken (count : Nat) : (turn.takeToken passage count).base = turn.base := by
  cases count with
  | zero => rfl
  | succ count =>
    rw [takeToken]
    split
    case isTrue => exact base_stop turn
    case isFalse =>
      split
      case h_1 => rfl
      case h_2 limiter hlimiter =>
        split
        case h_1 => rfl
        case h_2 spent htaken =>
          have hburst : spent.burst = limiter.burst := by
            unfold RateLimiter.take at htaken
            split at htaken <;> cases htaken
            rfl
          have hsame : some spent.burst = turn.burst? := by rw [burst?, hlimiter, hburst]; rfl
          show Base.mk _ _ _ _ _ _ (some spent.burst) = _
          rw [hsame]
          rfl

theorem base_takePlace : (turn.takePlace passage).base = turn.base := by
  unfold takePlace
  split
  case isTrue => exact base_stop turn
  case isFalse =>
    dsimp only
    split <;> rfl

theorem base_fail (reason : String) : (turn.fail passage reason).base = turn.base := by
  unfold fail
  dsimp only
  split
  case h_1 => rfl
  case h_2 => exact base_vanish _

theorem base_conclude (answer : Outcome Unit) : (turn.conclude passage answer).base = turn.base := by
  unfold conclude
  split
  case h_1 => exact base_closeCall turn false
  case h_2 => exact (base_fail (turn.closeCall true) passage "timeout").trans (base_closeCall turn true)
  case h_3 => exact (base_fail (turn.closeCall true) passage "transport").trans (base_closeCall turn true)

theorem base_call : (turn.call passage).base = turn.base := by
  unfold call
  split
  case isTrue => exact base_stop turn
  case isFalse =>
    have hopened := base_openCall turn
    split
    case h_1 after hopen =>
      rw [hopen] at hopened
      exact (base_fail after passage "circuit_open").trans hopened
    case h_2 after hopen =>
      rw [hopen] at hopened
      have hcalled := (base_callSink after after.worker.sink passage.shipment).trans hopened
      dsimp only
      split
      case h_1 answer _ => exact (base_conclude _ passage answer).trans hcalled
      case h_2 => exact hcalled

theorem base_await (number deadline : Nat) : (turn.await passage number deadline).base = turn.base := by
  unfold await
  split
  case isTrue => exact base_stop turn
  case isFalse =>
    have hpolled := base_pollSink turn turn.worker.sink number passage.shipment
    split
    case h_1 answer world hpoll =>
      rw [hpoll] at hpolled
      exact (base_conclude _ passage answer).trans hpolled
    case h_2 =>
      split
      case isTrue => exact (base_conclude _ passage _).trans (base_abandonCall turn)
      case isFalse => rfl

theorem base_afterQueue {α : Type} (phase : Phase) (result : Outcome α × World)
    (hroster : result.2.roster = turn.world.roster) (hstorages : result.2.storages = turn.world.storages)
    (hnow : result.2.now = turn.world.now) : (turn.afterQueue phase result).base = turn.base := by
  obtain ⟨answer, world⟩ := result
  have hworld : base { turn with world } = turn.base := base_of_world turn hroster hstorages hnow
  unfold afterQueue
  cases answer with
  | ok value => exact hworld
  | error error =>
    dsimp only
    split
    case isTrue => exact (base_stop _).trans hworld
    case isFalse => exact hworld

theorem base_advance : (turn.advance passage).base = turn.base :=
  base_afterQueue _ passage.next _ (World.roster_advance ..) rfl rfl

theorem base_finish (file : FileRef) : (turn.finish file).base = turn.base :=
  base_afterQueue turn .ready _ (World.roster_finish ..) rfl rfl

theorem base_drop : turn.drop.base = turn.base := by
  have hworld := base_of_world turn (turn.world.roster_dropQueue turn.worker.key) rfl rfl
  unfold drop
  split
  case h_1 answer world hdrop =>
    rw [hdrop] at hworld
    exact (base_stop _).trans hworld
  case h_2 error world hdrop =>
    rw [hdrop] at hworld
    exact hworld

theorem base_step : (step turn).base = turn.base := by
  unfold step
  split
  case h_1 => exact base_checkGate turn
  case h_2 => exact base_checkGate turn
  case h_3 => exact base_load turn
  case h_4 file offset hasNext _ => exact base_read turn file offset hasNext
  case h_5 => exact base_drop turn
  case h_6 passage _ => exact base_beginShipping turn passage
  case h_7 passage count _ => exact base_takeToken turn passage count
  case h_8 passage _ => exact base_takePlace turn passage
  case h_9 passage _ => exact base_call turn passage
  case h_10 passage number deadline _ => exact base_await turn passage number deadline
  case h_11 =>
    split
    case isTrue => exact base_stop turn
    case isFalse => split <;> rfl
  case h_12 passage _ => exact base_advance turn passage
  case h_13 file _ => exact base_finish turn file
  case h_14 =>
    split
    case isTrue => exact base_stop turn
    case isFalse => split <;> rfl
  case h_15 =>
    split
    case isTrue => exact base_stop turn
    case isFalse => rfl
  case h_16 => split <;> rfl
  case h_17 => rfl

@[simp] theorem post_stop : turn.stop.post = turn.post := congrArg Base.post (base_stop turn)

theorem post_step : (step turn).post = turn.post := congrArg Base.post (base_step turn)

@[simp] theorem storages_stop : turn.stop.storages = turn.storages := congrArg Base.storages (base_stop turn)

theorem storages_step : (step turn).storages = turn.storages := congrArg Base.storages (base_step turn)

@[simp] theorem station_stop : turn.stop.station = turn.station := congrArg Base.station (base_stop turn)

theorem station_step : (step turn).station = turn.station := congrArg Base.station (base_step turn)

theorem settings_step : (step turn).settings = turn.settings := congrArg Base.settings (base_step turn)

theorem now_step : (step turn).world.now = turn.world.now := congrArg Base.now (base_step turn)

theorem dismissed_step : (step turn).worker.dismissed = turn.worker.dismissed :=
  congrArg Base.dismissed (base_step turn)

theorem burst?_step : (step turn).burst? = turn.burst? := congrArg Base.burst? (base_step turn)

end Frame

end Turn

theorem post_run (steps : Nat) (turn : Turn) : (run steps turn).post = turn.post := by
  induction steps generalizing turn with
  | zero => rfl
  | succ steps ih =>
    rw [run]
    split
    case isTrue => exact turn.post_step
    case isFalse => exact (ih (step turn)).trans turn.post_step

/-- A worker that has finished does nothing any more. -/
theorem run_of_isFinished (steps : Nat) {turn : Turn} (h : turn.worker.isFinished = true) :
    run steps turn = turn := by
  have hphase : turn.worker.phase = .stopped := beq_iff_eq.mp h
  have hstep : step turn = turn := by
    unfold step
    rw [hphase]
  cases steps with
  | zero => rfl
  | succ steps =>
    rw [run, hstep]
    exact if_pos rfl

end Worker

end LogShipping
