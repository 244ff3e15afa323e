import LogShipping.Failover.Pass
import LogShipping.Report.Log

/-!
# Reports on the store

JSON documents that show peers, queues, failover passes and what is announced of them. A queue's key is
shown as its owner, its peer and its origin.
-/

namespace LogShipping.Report

def peer (peer : Peer) : Json := .array [peer.id, peer.connection, peer.enabled]

def key (key : QueueKey) : Json := .array [key.owner, key.peer, key.origin]

def keys (keys : List QueueKey) : Json := .list key keys

def move (pair : QueueKey × QueueKey) : Json := .array [key pair.1, key pair.2]

def head (queue : Queue) : Json := .ofOption (fun file ↦ file.seq.toNat) queue.head?

def position (queue : Queue) : Json := .ofOption (fun position ↦ position.text) queue.position?

def queue (queue : Queue) : Json := record [
  ("key", key queue.key), ("offset", queue.offset), ("files", .list file queue.files)]

/-- All queues, if the database can be reached. -/
def queues (database : Database) : Json :=
  if database.reachable then
    .list queue (database.queues.keys.filterMap database.queues.get?)
  else "store down"

def counts (counts : List (String × Nat)) : Json :=
  record (counts.map fun (name, count) ↦ (name, count))

/-- Documents in order of their texts. -/
def sort (documents : List Json) : List Json :=
  let written := documents.map fun document ↦ (Json.write document, document)
  (written.mergeSort fun x y ↦ Bytes.order x.1 y.1 != .gt).map (·.2)

def peerEvent : PeerEvent → Json
  | .added added => record [("added", peer added)]
  | .removed id => record [("removed", id)]
  | .stateChanged id on => record [("state_changed", .array [id, on])]
  | .replicating on => record [("replicating", on)]

def queueEvent : QueueEvent → Json
  | .created created => record [("created", key created)]
  | .transferred source target => record [("transferred", move (source, target))]
  | .dropped dropped => record [("dropped", key dropped)]

def memberEvent : MembershipEvent → Json
  | .joined node => record [("joined", node)]
  | .died node => record [("died", node)]

/-- What a failover pass did, each of its lists arranged in some way. -/
def failover (arrange : List Json → List Json) (report : Failover.Report) : Json := record [
  ("transferred", .array (arrange (report.transferred.map move))),
  ("orphaned", .array (arrange (report.orphaned.map key))),
  ("dropped", .array (arrange (report.dropped.map key)))]

end LogShipping.Report
