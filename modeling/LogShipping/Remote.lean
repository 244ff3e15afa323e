import LogShipping.Error
import LogShipping.Shipment

/-!
# Remote clusters

A remote cluster takes shipments in. How it behaves on each call can be laid down in advance: it may
accept the shipment, fail, refuse it, leave the call open until it is told how to end it, or never
answer. Once nothing is laid down any more it accepts.
-/

namespace LogShipping

namespace Remote

inductive Behaviour
  | accept
  | fail
  | refuse
  /-- The call stays open until it is released. -/
  | hold
  /-- The call stays open for good. -/
  | ignore
  deriving Repr, DecidableEq

namespace Behaviour

def name : Behaviour → String
  | accept => "ok"
  | fail => "fail"
  | refuse => "wal"
  | hold => "hang"
  | ignore => "timeout"

def ofName? (name : String) : Option Behaviour :=
  [accept, fail, refuse, hold, ignore].find? (·.name == name)

end Behaviour

end Remote

structure Remote where
  name : String
  /-- The behaviour on the next calls. -/
  script : List Remote.Behaviour
  /-- How many calls there were. -/
  attempts : Nat
  accepted : List Shipment
  /-- The calls that can be released. -/
  held : List Nat
  /-- The calls that were released, and how. -/
  released : List (Nat × Remote.Behaviour)
  deriving Repr, DecidableEq

namespace Remote

def create (name : String) : Remote := ⟨name, [], 0, [], [], []⟩

def injected (remote : Remote) : Error := .ship remote.name "injected failure"

def refusal : Error := .log "rejected"

/-- Ends a call as a behaviour asks for. Calls that it leaves open have no answer. -/
def settle (remote : Remote) (behaviour : Behaviour) (shipment : Shipment) :
    Option (Outcome Unit) × Remote :=
  match behaviour with
  | .accept => (some (.ok ()), { remote with accepted := remote.accepted ++ [shipment] })
  | .fail => (some (.error remote.injected), remote)
  | .refuse => (some (.error refusal), remote)
  | .hold | .ignore => (none, remote)

/-- A call comes in. It is known by its number from then on. -/
def call (remote : Remote) (shipment : Shipment) : Option (Outcome Unit) × Remote :=
  let behaviour := remote.script.headD .accept
  let number := remote.attempts
  let remote := { remote with script := remote.script.tail, attempts := number + 1 }
  let remote :=
    if behaviour = .hold then { remote with held := remote.held ++ [number] } else remote
  remote.settle behaviour shipment

/-- Asks whether an open call has been answered by now. -/
def poll (remote : Remote) (number : Nat) (shipment : Shipment) : Option (Outcome Unit) × Remote :=
  match remote.released.lookup number with
  | none => (none, remote)
  | some behaviour =>
    { remote with released := remote.released.filter (·.1 != number) }.settle behaviour shipment

/-- The caller gives up an open call. -/
def abandon (remote : Remote) (number : Nat) : Remote :=
  { remote with
    held := remote.held.filter (· != number)
    released := remote.released.filter (·.1 != number) }

/-- All calls held end in the given way. -/
def release (remote : Remote) (behaviour : Behaviour) : Remote :=
  { remote with
    held := []
    released := remote.released ++ remote.held.map (·, behaviour) }

end Remote

end LogShipping
