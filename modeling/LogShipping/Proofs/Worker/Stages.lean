import LogShipping.Proofs.Worker.Transitions

/-!
# How far a worker has come with a call

On the way to a call of its peer a worker looks at the gate, waits for tokens and then for a place in the
bulkhead. It keeps the place while it calls, while the call is open and while it backs off after a failure.
Here is said once, for every step, from which stage to which it leads and what it does to the bulkhead.
-/

namespace LogShipping.Worker

inductive Stage
  /-- No call is being made, and none is about to be. -/
  | aside
  /-- The worker waits for tokens. -/
  | tokens
  /-- It waits for a place. -/
  | line
  | calling
  /-- The call is open. -/
  | underway
  | backoff
  deriving Repr, DecidableEq

def Phase.stage : Phase → Stage
  | awaitingTokens .. => .tokens
  | awaitingPlace _ => .line
  | calling _ => .calling
  | inFlight .. => .underway
  | backingOff .. => .backoff
  | _ => .aside

theorem stage_next (passage : Passage) : passage.next.stage = .aside := by
  unfold Passage.next
  split
  case isTrue => rfl
  case isFalse => split <;> rfl

theorem stage_afterShipping (passage : Passage) : passage.afterShipping.stage = .aside := by
  unfold Passage.afterShipping
  split
  case isTrue => rfl
  case isFalse => exact stage_next passage

namespace Turn

variable {turn : Turn} {passage : Passage}

def stage (turn : Turn) : Stage := turn.worker.phase.stage

def places (turn : Turn) : Bulkhead QueueKey := turn.facilities.places

/-- What a step does: it leads to a stage, and leaves the places as they then are. -/
inductive Passes (turn : Turn) : Stage → Bulkhead QueueKey → Prop
  /-- The worker gives back its place, or leaves the line, or had nothing to leave. -/
  | leaves : Passes turn .aside (turn.places.leave turn.worker.key)
  | aside (h : turn.stage = .aside) : Passes turn .aside turn.places
  /-- The worker sets about shipping. -/
  | looks {passage : Passage} (h : turn.worker.phase = .shipping passage) (hstays : turn.mustStop = false)
      (hopen : turn.gateOpen = true) : Passes turn .tokens turn.places
  | waits (h : turn.stage = .tokens) : Passes turn .tokens turn.places
  | provided (h : turn.stage = .tokens) : Passes turn .line turn.places
  | queues (h : turn.stage = .line)
      (hplace : (turn.places.enter turn.worker.key).holds turn.worker.key = false) :
      Passes turn .line (turn.places.enter turn.worker.key)
  | enters (h : turn.stage = .line)
      (hplace : (turn.places.enter turn.worker.key).holds turn.worker.key = true) :
      Passes turn .calling (turn.places.enter turn.worker.key)
  | opens (h : turn.stage = .calling) : Passes turn .underway turn.places
  | fails (h : turn.stage = .calling ∨ turn.stage = .underway) : Passes turn .backoff turn.places
  | awaits (h : turn.stage = .underway) : Passes turn .underway turn.places
  | rests (h : turn.stage = .backoff) : Passes turn .backoff turn.places

/-- The result of a step, seen as a passing. -/
def Does (turn after : Turn) : Prop := turn.Passes after.stage after.places

section Frame

variable (turn : Turn)

@[simp] theorem places_abandonCall : turn.abandonCall.places = turn.places := by
  unfold abandonCall
  split <;> rfl

@[simp] theorem worker_abandonCall : turn.abandonCall.worker = turn.worker := by
  unfold abandonCall
  split <;> rfl

@[simp] theorem places_closeCall (failed : Bool) : (turn.closeCall failed).places = turn.places := by
  unfold closeCall
  dsimp only
  split <;> rfl

@[simp] theorem worker_closeCall (failed : Bool) : (turn.closeCall failed).worker = turn.worker := by
  unfold closeCall
  dsimp only
  split <;> rfl

theorem places_openCall : turn.openCall.2.places = turn.places := by
  unfold openCall
  dsimp only
  split <;> rfl

/-- A worker that is stopped gives back its place. -/
theorem places_vanish : turn.vanish.places = turn.places.leave turn.worker.key := by
  show turn.abandonCall.places.leave turn.abandonCall.worker.key = _
  rw [places_abandonCall, worker_abandonCall]

end Frame

/-! ## Each step -/

theorem does_vanish {after : Turn} (hplaces : after.places = turn.places)
    (hworker : after.worker.key = turn.worker.key) : turn.Does after.vanish := by
  unfold Does
  rw [places_vanish, hplaces, hworker]
  exact .leaves

theorem does_stop {after : Turn} (hplaces : after.places = turn.places)
    (hworker : after.worker.key = turn.worker.key) : turn.Does after.stop :=
  does_vanish hplaces hworker

theorem does_checkGate (h : turn.stage = .aside) : turn.Does turn.checkGate := by
  unfold checkGate
  split
  case isTrue => exact does_stop rfl rfl
  case isFalse => split <;> exact .aside h

theorem does_load (h : turn.stage = .aside) : turn.Does turn.load := by
  unfold load
  dsimp only
  split
  case h_1 => exact .aside h
  case h_2 => exact does_stop rfl rfl
  case h_3 =>
    split
    case h_1 =>
      unfold Does
      split <;> exact .aside h
    case h_2 => exact .aside h

theorem does_takeBatch (h : turn.stage = .aside) (file : FileRef) (closed hasNext : Bool) (batch : Batch) :
    turn.Does (turn.takeBatch file closed hasNext batch) := by
  unfold takeBatch
  dsimp only
  generalize hafter : (if (batch.truncated && _) = true then _ else _ : Turn) = after
  have hplaces : after.places = turn.places := by
    rw [← hafter]
    split <;> rfl
  unfold Does
  split
  case isTrue =>
    show turn.Passes (Passage.afterShipping _).stage after.places
    rw [stage_afterShipping, hplaces]
    exact .aside h
  case isFalse =>
    show turn.Passes .aside after.places
    rw [hplaces]
    exact .aside h

theorem does_read (h : turn.stage = .aside) (file : FileRef) (offset : Nat) (hasNext : Bool) :
    turn.Does (turn.read file offset hasNext) := by
  unfold read
  dsimp only
  split
  case h_1 => split <;> exact .aside h
  case h_2 => exact .aside h
  case h_3 =>
    split
    case h_1 => exact does_takeBatch h _ _ _ _
    case h_2 => exact .aside h
    case h_3 => exact .aside h

theorem does_beginShipping (h : turn.worker.phase = .shipping passage) :
    turn.Does (turn.beginShipping passage) := by
  unfold beginShipping
  split
  case isTrue => exact does_stop rfl rfl
  case isFalse hstays =>
    split
    case isTrue hopen => exact .looks h (Bool.not_eq_true _ ▸ hstays) hopen
    case isFalse => exact .aside (by rw [stage, h]; rfl)

theorem does_takeToken (h : turn.stage = .tokens) (count : Nat) : turn.Does (turn.takeToken passage count) := by
  cases count with
  | zero => exact .provided h
  | succ count =>
    rw [takeToken]
    split
    case isTrue => exact does_stop rfl rfl
    case isFalse =>
      split
      case h_1 => exact .provided h
      case h_2 =>
        split
        case h_1 =>
          unfold Does
          rw [h]
          exact .waits h
        case h_2 => exact .waits h

theorem does_takePlace (h : turn.stage = .line) : turn.Does (turn.takePlace passage) := by
  unfold takePlace
  split
  case isTrue => exact does_stop rfl rfl
  case isFalse =>
    dsimp only
    split
    case isTrue hplace => exact .enters h hplace
    case isFalse hplace =>
      have hqueues : turn.Passes .line (turn.places.enter turn.worker.key) :=
        .queues h (Bool.not_eq_true _ ▸ hplace)
      rw [← h] at hqueues
      exact hqueues

theorem does_fail (h : turn.stage = .calling ∨ turn.stage = .underway) {after : Turn}
    (hplaces : after.places = turn.places) (hworker : after.worker.key = turn.worker.key) (reason : String) :
    turn.Does (after.fail passage reason) := by
  unfold fail
  dsimp only
  split
  case h_1 =>
    have hfails := Passes.fails h
    rw [← hplaces] at hfails
    exact hfails
  case h_2 => exact does_vanish hplaces hworker

theorem does_conclude (h : turn.stage = .calling ∨ turn.stage = .underway) {after : Turn}
    (hplaces : after.places = turn.places) (hworker : after.worker.key = turn.worker.key)
    (answer : Outcome Unit) : turn.Does (after.conclude passage answer) := by
  have hclosed (failed : Bool) : (after.closeCall failed).places = turn.places :=
    (places_closeCall after failed).trans hplaces
  have hkey (failed : Bool) : (after.closeCall failed).worker.key = turn.worker.key := by
    rw [worker_closeCall, hworker]
  unfold conclude
  split
  case h_1 =>
    unfold Does
    show turn.Passes passage.afterShipping.stage
      ((after.closeCall false).places.leave (after.closeCall false).worker.key)
    rw [stage_afterShipping, hclosed, hkey]
    exact .leaves
  case h_2 => exact does_fail h (hclosed true) (hkey true) "timeout"
  case h_3 => exact does_fail h (hclosed true) (hkey true) "transport"

theorem does_call (h : turn.stage = .calling) : turn.Does (turn.call passage) := by
  unfold call
  split
  case isTrue => exact does_stop rfl rfl
  case isFalse =>
    have hplaces := places_openCall turn
    have hworker := congrArg Worker.key (worker_openCall turn)
    split
    case h_1 after hopen =>
      rw [hopen] at hplaces hworker
      exact does_fail (.inl h) hplaces hworker "circuit_open"
    case h_2 after hopen =>
      rw [hopen] at hplaces hworker
      dsimp only
      split
      case h_1 answer _ =>
        refine does_conclude (.inl h) ?_ ?_ answer
        · exact hplaces
        · exact hworker
      case h_2 =>
        have hopens := Passes.opens h
        rw [← hplaces] at hopens
        exact hopens

theorem does_await (h : turn.stage = .underway) (number deadline : Nat) :
    turn.Does (turn.await passage number deadline) := by
  unfold await
  split
  case isTrue => exact does_stop rfl rfl
  case isFalse =>
    split
    case h_1 answer world _ => refine does_conclude (.inr h) ?_ ?_ answer <;> rfl
    case h_2 =>
      split
      case isTrue =>
        exact does_conclude (.inr h) (places_abandonCall turn) (by rw [worker_abandonCall]) _
      case isFalse =>
        unfold Does
        rw [h]
        exact .awaits h

theorem does_afterQueue {α : Type} (h : turn.stage = .aside) {after : Turn}
    (hplaces : after.places = turn.places) (hworker : after.worker.key = turn.worker.key) {phase : Phase}
    (hphase : phase.stage = .aside) (result : Outcome α × World) :
    turn.Does (after.afterQueue phase result) := by
  have haside := Passes.aside h
  rw [← hplaces] at haside
  unfold afterQueue
  split
  case h_1 =>
    unfold Does
    show turn.Passes phase.stage after.places
    rw [hphase]
    exact haside
  case h_2 =>
    split
    case isTrue => exact does_stop hplaces hworker
    case isFalse => exact haside

theorem does_advance (h : turn.stage = .aside) : turn.Does (turn.advance passage) := by
  unfold advance
  refine does_afterQueue h ?_ ?_ (stage_next passage) _ <;> rfl

theorem does_drop (h : turn.stage = .aside) : turn.Does turn.drop := by
  unfold drop
  split
  case h_1 => exact does_stop rfl rfl
  case h_2 => exact .aside h

/-- What a step does. -/
theorem does_step (turn : Turn) : turn.Does (step turn) := by
  unfold step
  cases hphase : turn.worker.phase with
  | ready => exact does_checkGate (by rw [stage, hphase]; rfl)
  | gated => exact does_checkGate (by rw [stage, hphase]; rfl)
  | loading => exact does_load (by rw [stage, hphase]; rfl)
  | reading file offset hasNext => exact does_read (by rw [stage, hphase]; rfl) file offset hasNext
  | dropping => exact does_drop (by rw [stage, hphase]; rfl)
  | shipping passage => exact does_beginShipping hphase
  | awaitingTokens passage count => exact does_takeToken (by rw [stage, hphase]; rfl) count
  | awaitingPlace passage => exact does_takePlace (by rw [stage, hphase]; rfl)
  | calling passage => exact does_call (by rw [stage, hphase]; rfl)
  | inFlight passage number deadline => exact does_await (by rw [stage, hphase]; rfl) number deadline
  | backingOff passage wake =>
    have hstage : turn.stage = .backoff := by rw [stage, hphase]; rfl
    dsimp only
    split
    case isTrue => exact does_stop rfl rfl
    case isFalse =>
      split
      case isTrue => exact .leaves
      case isFalse =>
        unfold Does
        rw [hstage]
        exact .rests hstage
  | advancing passage => exact does_advance (by rw [stage, hphase]; rfl)
  | finishing file => exact does_afterQueue (by rw [stage, hphase]; rfl) rfl rfl rfl _
  | idle =>
    have hstage : turn.stage = .aside := by rw [stage, hphase]; rfl
    dsimp only
    unfold Does
    split
    case isTrue => exact .aside hstage
    case isFalse => rw [hstage]; exact .aside hstage
  | pausing wake =>
    have hstage : turn.stage = .aside := by rw [stage, hphase]; rfl
    dsimp only
    split
    case isTrue => exact does_stop rfl rfl
    case isFalse =>
      unfold Does
      split
      case isTrue => exact .aside hstage
      case isFalse => rw [hstage]; exact .aside hstage
  | stalled =>
    have hstage : turn.stage = .aside := by rw [stage, hphase]; rfl
    dsimp only
    split
    case isTrue => exact does_stop rfl rfl
    case isFalse => unfold Does; rw [hstage]; exact .aside hstage
  | stopped =>
    have hstage : turn.stage = .aside := by rw [stage, hphase]; rfl
    unfold Does
    rw [hstage]
    exact .aside hstage

end Turn

end LogShipping.Worker
