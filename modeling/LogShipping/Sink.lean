import LogShipping.Stream.Peer
import LogShipping.World

/-!
# Sinks

A sink is where the workers of a node send a peer's shipments. A connection `mem://name` leads to the
remote cluster of that name, and every other one has to be the address of a stream.
-/

namespace LogShipping

inductive Sink
  | remote (name : String)
  | stream (stream : PeerStream)

namespace Sink

/-- What connections to remote clusters begin with. -/
def remoteMark : List Char := "mem://".toList

/-- The sink for a peer as it is registered. -/
def connect (settings : Settings) (peer : Peer) : Outcome Sink :=
  let connection := peer.connection.toList
  if remoteMark.isPrefixOf connection then
    .ok (remote (String.ofList (connection.drop remoteMark.length)))
  else (PeerStream.create peer settings.stream .standard).map stream

/-- A call that was begun: answered, or open under a number. -/
inductive Call
  | answered (answer : Outcome Unit)
  | opened (number : Nat)

/-- No stream's server can be reached from here. -/
def unreachable : Stream.Server := ⟨false, [], []⟩

/-- Begins to send a shipment. -/
def call (sink : Sink) (world : World) (shipment : Shipment) : Call × World :=
  match sink with
  | remote name =>
    let number := (world.remote name).attempts
    match (world.remote name).call shipment with
    | (some answer, after) => (.answered answer, world.setRemote after)
    | (none, after) => (.opened number, world.setRemote after)
  | stream peerStream =>
    match peerStream.ship unreachable shipment with
    | some called => (.answered called.answer, world)
    | none => (.answered (.error (.ship peerStream.peer "no wait between attempts")), world)

/-- Asks for the answer to an open call. -/
def poll (sink : Sink) (world : World) (number : Nat) (shipment : Shipment) :
    Option (Outcome Unit) × World :=
  match sink with
  | remote name =>
    let (answer, after) := (world.remote name).poll number shipment
    (answer, world.setRemote after)
  | stream _ => (none, world)

/-- Gives up an open call. -/
def abandon (sink : Sink) (world : World) (number : Nat) : World :=
  match sink with
  | remote name => world.setRemote ((world.remote name).abandon number)
  | stream _ => world

end Sink

end LogShipping
