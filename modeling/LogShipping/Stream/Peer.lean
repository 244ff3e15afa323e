import LogShipping.Database
import LogShipping.Metrics
import LogShipping.Payload
import LogShipping.Retry
import LogShipping.Settings
import LogShipping.Shipment
import LogShipping.Stream.Address

/-!
# Shipping to a peer's stream

A shipment becomes one record on the peer's stream: who it comes from, how many entries it holds, and
their payload with its form and its hash. The peer's reply acknowledges it. The connection is made for
the first shipment and kept; whatever goes wrong with a record ends it, and the next shipment connects
anew.
-/

namespace LogShipping

namespace Stream

/-- How a server replies to a record. -/
inductive Reply
  | id (text : String)
  | integer (value : Nat)
  | nil
  | failure (text : String)
  /-- The connection ends without a reply. -/
  | closed
  deriving Repr, DecidableEq

namespace Reply

/-- The reply can be read as the record's name. -/
def isAccepted : Reply → Bool
  | id _ | integer _ => true
  | nil | failure _ | closed => false

end Reply

/-- A server as its clients see it: whether it can be reached, how it is going to reply, and the
records it has received. -/
structure Server where
  reachable : Bool
  replies : List Reply
  received : List (List Bytes)
  deriving Repr, DecidableEq

namespace Server

/-- Receives a record and replies. Without a reply to give the record is named. -/
def receive (server : Server) (record : List Bytes) : Reply × Server :=
  let server := { server with received := server.received ++ [record] }
  match server.replies with
  | [] => (.id "0-1", server)
  | reply :: replies => (reply, { server with replies })

end Server

end Stream

/-- The way to a peer's stream. -/
structure PeerStream where
  peer : String
  address : Stream.Address
  settings : StreamSettings
  retry : RetryPolicy
  connected : Bool

namespace PeerStream

def create (peer : Peer) (settings : StreamSettings) (retry : RetryPolicy) : Outcome PeerStream :=
  match Stream.Address.read? peer.connection with
  | some address => .ok ⟨peer.id, address, settings, retry, false⟩
  | none =>
    .error (.config ("Invalid Redis URL for peer " ++ peer.id ++ ": " ++ peer.connection))

/-- The command that puts a shipment on the stream. -/
def record (stream : PeerStream) (shipment : Shipment) : List Bytes :=
  let payload := Payload.encode shipment.entries stream.settings.compressThreshold
  let limit :=
    if stream.settings.maxLength = 0 then []
    else ["MAXLEN", "~", Decimal.text stream.settings.maxLength]
  (["XADD", stream.settings.key] ++ limit ++
    ["*", "origin", shipment.origin, "edits", Decimal.text shipment.edits, "encoding",
      payload.encoding, "hash", payload.hash, "payload"]).map Bytes.ofText ++ [payload.bytes]

/-- What a call came to, with what it changed. -/
structure Called where
  answer : Outcome Unit
  stream : PeerStream
  server : Stream.Server
  measures : List Measure

/-- How often a connection is attempted. -/
def attempts (stream : PeerStream) : Nat := max 1 stream.retry.attempts

/-- Whether there is a wait to be had after every attempt but the last. -/
def canWait (stream : PeerStream) : Bool :=
  (List.range (stream.attempts - 1)).all fun attempt ↦ (stream.retry.delay? (attempt + 1)).isSome

/-- Makes the connection unless there is one. There is no answer if a wait between attempts is none. -/
def connect (stream : PeerStream) (server : Stream.Server) : Option Called :=
  if stream.connected then some ⟨.ok (), stream, server, []⟩
  else if server.reachable then
    some ⟨.ok (), { stream with connected := true }, server, [.peerConnection stream.peer true]⟩
  else if stream.canWait then
    let failed : Error := .ship stream.peer ("connect failed after " ++
      Decimal.text stream.attempts ++ " attempts: the peer cannot be reached")
    some ⟨.error failed, stream, server, [.peerConnection stream.peer false]⟩
  else none

def ship (stream : PeerStream) (server : Stream.Server) (shipment : Shipment) : Option Called := do
  let called ← stream.connect server
  match called.answer with
  | .error _ => return called
  | .ok _ =>
    let (reply, server) := called.server.receive (called.stream.record shipment)
    if reply.isAccepted then return { called with server }
    else
      let stream := { called.stream with connected := false }
      return { called with answer := .error (.stream "XADD" "no name for the record"), stream, server }

end PeerStream

end LogShipping
