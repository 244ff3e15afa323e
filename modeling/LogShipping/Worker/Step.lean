import LogShipping.Worker.Basic

/-!
# The steps of a worker

`Worker.step` takes a worker from one phase to the next. Each step makes at most one call to the
database or to the peer. A worker that cannot go on stays as it is.
-/

namespace LogShipping.Worker

/-- A worker with all that it works with. -/
structure Turn where
  world : World
  facilities : Facilities
  worker : Worker

namespace Turn

def goTo (turn : Turn) (phase : Phase) : Turn := { turn with worker := { turn.worker with phase } }

def become (turn : Turn) (state : WorkerState) : Turn :=
  { turn with worker := { turn.worker with state } }

def measure (turn : Turn) (measure : Measure) : Turn :=
  { turn with world := turn.world.measure measure }

/-- Gives back the worker's place in the bulkhead, or in the line before it. -/
def leavePlace (turn : Turn) : Turn :=
  { turn with
    facilities := { turn.facilities with places := turn.facilities.places.leave turn.worker.key } }

/-- Gives up the call that is open. -/
def abandonCall (turn : Turn) : Turn :=
  match turn.worker.phase with
  | .inFlight _ number _ => { turn with world := turn.worker.sink.abandon turn.world number }
  | _ => turn

/-- The worker is gone. -/
def vanish (turn : Turn) : Turn := turn.abandonCall.leavePlace.goTo .stopped

def stop (turn : Turn) : Turn := turn.vanish.become .stopped

/-- The worker tries again after a while. -/
def pause (turn : Turn) : Turn :=
  turn.goTo (.pausing (turn.world.now + turn.facilities.settings.retrySleep))

/-- The worker was told to stop, or its peer is no longer registered. -/
def mustStop (turn : Turn) : Bool :=
  turn.worker.dismissed || !turn.world.registry.isCurrent turn.worker.gate

/-- Shipping to the peer is switched on. -/
def gateOpen (turn : Turn) : Bool :=
  turn.world.registry.replicating && turn.world.registry.isOpen turn.worker.gate

/-- A wait is over: its time has come, or the peer was switched off. -/
def waited (turn : Turn) (wake : Nat) : Bool :=
  wake ≤ turn.world.now || !turn.world.registry.isOpen turn.worker.gate

/-! ## Reading -/

def checkGate (turn : Turn) : Turn :=
  if turn.mustStop then turn.stop
  else if turn.gateOpen then (turn.goTo .loading).become .reading
  else (turn.goTo .gated).become .disabled

def load (turn : Turn) : Turn :=
  let key := turn.worker.key
  match turn.world.database.query (·.get? key) with
  | .error _ => turn.pause
  | .ok none => (turn.measure (.staleOwnership key.peer)).stop
  | .ok (some queue) =>
    let turn := { turn with worker := { turn.worker with files := queue.files.length } }
    match queue.head? with
    | none => turn.goTo (if key.isRecovered then .dropping else .idle)
    | some file =>
      { turn with worker := { turn.worker with
        position := ⟨file.seq, queue.offset⟩
        phase := .reading file queue.offset queue.hasNext } }

/-- The committed length of a file that is still being written. -/
def activeLength? (turn : Turn) (file : FileRef) : Option Nat :=
  if turn.worker.key.isRecovered then none
  else
    match turn.world.activeLog turn.facilities.node with
    | some (active, committed) => if active.seq = file.seq then some committed else none
    | none => none

def limits (turn : Turn) : Batch.Limits :=
  ⟨turn.facilities.settings.sizeCapacity, turn.facilities.settings.countCapacity⟩

/-- Goes on with a batch that was read. -/
def takeBatch (turn : Turn) (file : FileRef) (closed hasNext : Bool) (batch : Batch) : Turn :=
  let key := turn.worker.key
  let finishable := batch.exhausted && closed && (hasNext || key.isRecovered)
  let turn := turn.measure (.editsRead key.peer batch.entries.length batch.filtered)
  let turn :=
    if batch.truncated && finishable then turn.measure (.logLoss key.peer "torn_tail") else turn
  let passage : Passage := {
    shipment := ⟨key.origin, key.peer, batch.entries⟩
    file, finishable
    start := batch.start
    stop := batch.stop
    exhausted := batch.exhausted }
  turn.goTo (if batch.isEmpty then passage.afterShipping else .shipping passage)

def read (turn : Turn) (file : FileRef) (offset : Nat) (hasNext : Bool) : Turn :=
  let active := turn.activeLength? file
  let opened := do
    let reader ← Log.Reader.openAt turn.world.directory file.path offset active
    match turn.world.directory.open? file.path with
    | .ok source => return (reader, source)
    | .error fault => throw (Error.file fault)
  match opened with
  | .error (.file .notFound) =>
    if active.isNone then
      (turn.measure (.logLoss turn.worker.key.peer "missing_file")).goTo (.finishing file)
    else turn.pause
  | .error _ => turn.pause
  | .ok (reader, source) =>
    match (Batch.take source turn.world.schema turn.limits reader).1 with
    | .ok batch => turn.takeBatch file active.isNone hasNext batch
    | .error (.log _) =>
      ((turn.measure (.logLoss turn.worker.key.peer "corrupt_record")).goTo .stalled).become .stalled
    | .error _ => turn.pause

/-! ## Shipping -/

def beginShipping (turn : Turn) (passage : Passage) : Turn :=
  if turn.mustStop then turn.stop
  else if turn.gateOpen then
    (turn.goTo (.awaitingTokens passage passage.shipment.edits)).become .shipping
  else turn.goTo .ready

def takeToken (turn : Turn) (passage : Passage) : (count : Nat) → Turn
  | 0 => turn.goTo (.awaitingPlace passage)
  | count + 1 =>
    if turn.worker.dismissed then turn.stop
    else
      match turn.facilities.limiter with
      | none => turn.goTo (.awaitingPlace passage)
      | some limiter =>
        match limiter.take turn.world.now with
        | (false, _) => turn
        | (true, limiter) =>
          { turn with facilities := { turn.facilities with limiter := some limiter } }.goTo
            (.awaitingTokens passage count)

def takePlace (turn : Turn) (passage : Passage) : Turn :=
  if turn.worker.dismissed then turn.stop
  else
    let places := turn.facilities.places.enter turn.worker.key
    let turn := { turn with facilities := { turn.facilities with places } }
    if places.holds turn.worker.key then turn.goTo (.calling passage) else turn

/-- The shipment was not acknowledged. The worker keeps its place while it waits. If the wait fits no duration, it is
gone. -/
def fail (turn : Turn) (passage : Passage) (reason : String) : Turn :=
  let failures := turn.worker.failures + 1
  let turn := turn.measure (.shipFailure turn.worker.key.peer reason)
  let turn := { turn with worker := { turn.worker with failures } }
  match turn.facilities.settings.backoff? failures with
  | some delay => (turn.goTo (.backingOff passage (turn.world.now + delay))).become .backoff
  | none => turn.vanish

/-- Tells the circuit how the call ended. -/
def closeCall (turn : Turn) (failed : Bool) : Turn :=
  let circuits := turn.facilities.circuits
  match circuits.entries.find? (·.number == turn.worker.circuit) with
  | none => turn
  | some entry =>
    let circuit := entry.circuit.leave turn.world.now failed
    { turn with
      facilities := { turn.facilities with circuits := circuits.update { entry with circuit } } }

/-- The peer has answered, or has not answered in time. -/
def conclude (turn : Turn) (passage : Passage) : Outcome Unit → Turn
  | .ok _ =>
    let edits := passage.shipment.edits
    let turn := (turn.closeCall false).measure (.batchShipped turn.worker.key.peer edits 0)
    { turn with worker := { turn.worker with
      failures := 0
      edits := turn.worker.edits + edits
      hasShipped := true } }.leavePlace.goTo (passage.afterShipping)
  | .error (.timeout ..) => (turn.closeCall true).fail passage "timeout"
  | .error _ => (turn.closeCall true).fail passage "transport"

/-- Asks the circuit whether the call may go through. -/
def openCall (turn : Turn) : Bool × Turn :=
  let circuits := turn.facilities.circuits
  match circuits.entries.find? (·.number == turn.worker.circuit) with
  | none => (true, turn)
  | some entry =>
    let (admitted, circuit) := entry.circuit.enter turn.world.now
    let circuits := circuits.update { entry with circuit }
    (admitted, { turn with facilities := { turn.facilities with circuits } })

def call (turn : Turn) (passage : Passage) : Turn :=
  if turn.worker.dismissed then turn.stop
  else
    match turn.openCall with
    | (false, turn) => turn.fail passage "circuit_open"
    | (true, turn) =>
      let (begun, world) := turn.worker.sink.call turn.world passage.shipment
      let turn := { turn with world }
      match begun with
      | .answered answer => turn.conclude passage answer
      | .opened number =>
        turn.goTo (.inFlight passage number
          (turn.world.now + turn.facilities.settings.shipDeadline))

/-- What a call comes to that is not answered in time. -/
def overdue (turn : Turn) (passage : Passage) : Outcome Unit :=
  .error (.timeout ("ship to peer " ++ passage.shipment.peer)
    turn.facilities.settings.shipDeadline.milliseconds)

def await (turn : Turn) (passage : Passage) (number deadline : Nat) : Turn :=
  if turn.worker.dismissed then turn.stop
  else
    match turn.worker.sink.poll turn.world number passage.shipment with
    | (some answer, world) => { turn with world }.conclude passage answer
    | (none, _) =>
      if deadline ≤ turn.world.now then turn.abandonCall.conclude passage (turn.overdue passage)
      else turn

/-! ## Moving on -/

/-- Goes on after an operation on the queue: to a phase, or as its error asks for. -/
def afterQueue {α : Type} (turn : Turn) (phase : Phase) : Outcome α × World → Turn
  | (.ok _, world) => { turn with world }.goTo phase
  | (.error error, world) =>
    if error.isStale then { turn with world }.stop else { turn with world }.pause

def advance (turn : Turn) (passage : Passage) : Turn :=
  let (answer, world) := turn.world.advance turn.worker.key passage.start passage.target
  let position := match answer with
    | .ok _ => passage.target
    | .error _ => turn.worker.position
  { turn with worker := { turn.worker with position } }.afterQueue (passage.next)
    (answer, world)

def finish (turn : Turn) (file : FileRef) : Turn :=
  turn.afterQueue .ready (turn.world.finish turn.worker.key file.seq)

/-- Drops the queue. Nothing is left to do for the worker then. -/
def drop (turn : Turn) : Turn :=
  match turn.world.dropQueue turn.worker.key with
  | (.ok _, world) => { turn with world }.stop
  | (.error _, world) => { turn with world }.pause

end Turn

/-- The next step. -/
def step (turn : Turn) : Turn :=
  match turn.worker.phase with
  | .ready | .gated => turn.checkGate
  | .loading => turn.load
  | .reading file offset hasNext => turn.read file offset hasNext
  | .dropping => turn.drop
  | .shipping passage => turn.beginShipping passage
  | .awaitingTokens passage count => turn.takeToken passage count
  | .awaitingPlace passage => turn.takePlace passage
  | .calling passage => turn.call passage
  | .inFlight passage number deadline => turn.await passage number deadline
  | .backingOff passage wake =>
    if turn.mustStop then turn.stop
    else if turn.waited wake then turn.leavePlace.goTo (.shipping passage)
    else turn
  | .advancing passage => turn.advance passage
  | .finishing file => turn.finish file
  | .pausing wake =>
    if turn.mustStop then turn.stop else if turn.waited wake then turn.goTo .ready else turn
  | .stalled => if turn.mustStop then turn.stop else turn
  | .idle => if turn.mustStop || !turn.gateOpen then turn.goTo .ready else turn
  | .stopped => turn

/-- Steps until nothing changes any more, but not without end. -/
def run : (steps : Nat) → Turn → Turn
  | 0, turn => turn
  | steps + 1, turn =>
    let next := step turn
    if next.worker.phase = turn.worker.phase then next else run steps next

end LogShipping.Worker
