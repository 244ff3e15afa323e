import LogShipping.Duration.Float

/-!
# Circuits

A circuit stands between a caller and a peer that may fail. While it is closed, calls go through and
the last results are kept in a window; once nearly all of a full window are failures it opens. While it
is open, calls are rejected until a time has passed; then it lets calls probe the peer, and the window
of these decides whether it opens or closes again. A result is judged only if the window was full
before it came. Rates of failures are single-precision numbers.
-/

namespace LogShipping

namespace Circuit

/-- The last results, the newest first; `true` stands for a failure. -/
structure Window where
  size : Nat
  failures : List Bool
  deriving Repr, DecidableEq

namespace Window

def empty (size : Nat) : Window := ⟨size, []⟩

def isFull (window : Window) : Bool := window.size ≤ window.failures.length

/-- The window after one more result, the oldest one forgotten if there are too many. -/
def add (window : Window) (failed : Bool) : Window :=
  { window with failures := (failed :: window.failures).take window.size }

def failed (window : Window) : Nat := window.failures.count true

end Window

inductive Phase
  | closed (window : Window)
  | opened (retryAfter : Nat)
  | probing (window : Window)
  deriving Repr, DecidableEq

structure Settings where
  /-- The size of the window while the circuit is closed. -/
  failureThreshold : Nat
  /-- The size of the window while it is probing. -/
  successThreshold : Nat
  recovery : Duration
  deriving Repr, DecidableEq

namespace Settings

def closedWindow (settings : Settings) : Window := .empty (max settings.failureThreshold 1)

def probingWindow (settings : Settings) : Window := .empty (max settings.successThreshold 1)

end Settings

end Circuit

structure Circuit where
  name : String
  settings : Circuit.Settings
  phase : Circuit.Phase
  calls : Nat
  successes : Nat
  failures : Nat
  rejections : Nat
  deriving Repr, DecidableEq

namespace Circuit

def create (name : String) (settings : Settings) : Circuit :=
  ⟨name, settings, .closed settings.closedWindow, 0, 0, 0, 0⟩

/-- The phase a call made at a time meets: a circuit that was open long enough is probing. -/
def phaseAt (circuit : Circuit) (now : Nat) : Phase :=
  match circuit.phase with
  | .opened retryAfter =>
    if retryAfter < now then .probing circuit.settings.probingWindow else .opened retryAfter
  | phase => phase

/-- A call made at a time would be rejected. -/
def rejectsAt (circuit : Circuit) (now : Nat) : Bool :=
  match circuit.phaseAt now with
  | .opened _ => true
  | _ => false

/-- A call comes in. The answer tells whether it may go through. -/
def enter (circuit : Circuit) (now : Nat) : Bool × Circuit :=
  let rejected := circuit.rejectsAt now
  (!rejected, { circuit with
    phase := circuit.phaseAt now
    calls := circuit.calls + 1
    rejections := if rejected then circuit.rejections + 1 else circuit.rejections })

/-- The nearest number of at most twenty-four binary digits, the even one of two. -/
def single (count : Nat) : Nat :=
  let unit := 1 <<< (count.log2 - 23)
  Duration.roundDiv count unit * unit

/-- Nearly all of the results are failures: ninety-nine of a hundred. The single-precision number next
to 0.99 is 16609444 / 2²⁴, and quotients become that one from half a unit below it on. -/
def tooManyFailed (window : Window) : Bool :=
  33218887 * single window.size ≤ 33554432 * single window.failed

/-- The phase after a call that went through has ended. -/
def judge (circuit : Circuit) (now : Nat) (failed : Bool) : Phase :=
  let opened : Phase := .opened (now + circuit.settings.recovery)
  match circuit.phase with
  | .closed window =>
    let after := window.add failed
    if window.isFull && tooManyFailed after then opened else .closed after
  | .probing window =>
    let after := window.add failed
    if window.isFull then
      if failed then if window.size ≤ 2 * after.failed then opened else .probing after
      else
        if 2 * after.failed ≤ window.size then .closed circuit.settings.closedWindow
        else .probing after
    else .probing after
  | phase => phase

/-- A call that went through has ended. -/
def leave (circuit : Circuit) (now : Nat) (failed : Bool) : Circuit :=
  { circuit with
    phase := circuit.judge now failed
    successes := if failed then circuit.successes else circuit.successes + 1
    failures := if failed then circuit.failures + 1 else circuit.failures }

/-- The circuit looks open: more calls were rejected, in all, than succeeded. -/
def looksOpen (circuit : Circuit) : Bool :=
  0 < circuit.rejections && circuit.successes < circuit.rejections

/-- What a failed call is reported as: rejected, or failed with a message. -/
def Failure.message : Option String → String
  | none => "circuit breaker open, request rejected"
  | some cause => "operation failed: " ++ cause

end Circuit

/-! ## The circuits of peers -/

/-- A peer's circuit, with a number that tells it from earlier ones of the same peer. -/
structure PeerCircuit where
  peer : String
  number : Nat
  circuit : Circuit
  deriving Repr, DecidableEq

/-- One circuit for each peer, made when it is first asked for. -/
structure PeerCircuits where
  settings : Circuit.Settings
  entries : List PeerCircuit
  next : Nat
  deriving Repr, DecidableEq

namespace PeerCircuits

def create (settings : Circuit.Settings) : PeerCircuits := ⟨settings, [], 0⟩

def find? (circuits : PeerCircuits) (peer : String) : Option PeerCircuit :=
  circuits.entries.find? (·.peer == peer)

/-- The circuit of a peer, made now if there is none. -/
def ofPeer (circuits : PeerCircuits) (peer : String) : PeerCircuit × PeerCircuits :=
  match circuits.find? peer with
  | some entry => (entry, circuits)
  | none =>
    let entry := ⟨peer, circuits.next, .create ("peer_" ++ peer) circuits.settings⟩
    (entry, { circuits with entries := circuits.entries ++ [entry], next := circuits.next + 1 })

/-- Puts a circuit back after a call. -/
def update (circuits : PeerCircuits) (entry : PeerCircuit) : PeerCircuits :=
  { circuits with
    entries := circuits.entries.map fun old ↦ if old.number = entry.number then entry else old }

def remove (circuits : PeerCircuits) (peer : String) : PeerCircuits :=
  { circuits with entries := circuits.entries.filter (·.peer != peer) }

/-- The peers whose circuits look open, in order. -/
def openPeers (circuits : PeerCircuits) : List String :=
  ((circuits.entries.filter (·.circuit.looksOpen)).map (·.peer)).mergeSort (· ≤ ·)

end PeerCircuits

end LogShipping
