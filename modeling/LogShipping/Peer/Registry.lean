import LogShipping.Database

/-!
# The peer registry

Each registry keeps a cache of the peer table, in which other registries may have written since, and
announces every change of the cache. Work for a peer is gated by the peer's enabled flag. A gate
belongs to one registration of the peer: once the peer is gone from the cache the gate is shut for
good, and a peer registered anew gets a new one.
-/

namespace LogShipping

inductive PeerEvent
  | added (peer : Peer)
  | removed (id : String)
  | stateChanged (id : String) (enabled : Bool)
  | replicating (on : Bool)
  deriving Repr, DecidableEq

/-- A gate, by the peer and the number of its registration. -/
structure Gate where
  peer : String
  registration : Nat
  deriving Repr, DecidableEq

structure CachedPeer where
  peer : Peer
  registration : Nat
  deriving Repr, DecidableEq

structure Registry where
  cached : List CachedPeer
  replicating : Bool
  /-- The number of the next registration. -/
  next : Nat
  deriving Repr, DecidableEq

namespace Registry

/-! ## The cache -/

def cached? (registry : Registry) (id : String) : Option CachedPeer :=
  registry.cached.find? (·.peer.id == id)

def peer? (registry : Registry) (id : String) : Option Peer := (registry.cached? id).map (·.peer)

def contains (registry : Registry) (id : String) : Bool := (registry.cached? id).isSome

/-- The cached peers in order of their names. -/
def peers (registry : Registry) : List Peer :=
  (registry.cached.map (·.peer)).mergeSort fun x y ↦ x.id ≤ y.id

def gate? (registry : Registry) (id : String) : Option Gate :=
  (registry.cached? id).map fun entry ↦ ⟨id, entry.registration⟩

/-- The peer is still the one the gate was made for. -/
def isCurrent (registry : Registry) (gate : Gate) : Bool := registry.gate? gate.peer == some gate

def isOpen (registry : Registry) (gate : Gate) : Bool :=
  registry.isCurrent gate && (registry.peer? gate.peer).any (·.enabled)

def insert (registry : Registry) (peer : Peer) : Registry :=
  if registry.contains peer.id then
    { registry with
      cached := registry.cached.map fun entry ↦
        if entry.peer.id = peer.id then { entry with peer } else entry }
  else
    { registry with
      cached := registry.cached ++ [⟨peer, registry.next⟩]
      next := registry.next + 1 }

def erase (registry : Registry) (id : String) : Registry :=
  { registry with cached := registry.cached.filter (·.peer.id != id) }

/-! ## Operations

Each answers, with the registry and the database after it, the events it announced. -/

structure Reply (α : Type) where
  answer : Outcome α
  registry : Registry
  database : Database
  events : List PeerEvent

/-- The registry of a database, loaded for the first time. -/
def load (database : Database) : Outcome Registry :=
  if database.reachable then
    .ok (database.peers.foldl insert ⟨[], database.replicating, 0⟩)
  else .error Database.unreachable

def refuse {α : Type} (registry : Registry) (database : Database) (error : Error) : Reply α :=
  ⟨.error error, registry, database, []⟩

def addPeer (registry : Registry) (database : Database) (id connection : String) : Reply Peer :=
  if !database.reachable then registry.refuse database Database.unreachable
  else if (database.peer? id).isSome then registry.refuse database (.duplicatePeer id)
  else
    let peer : Peer := ⟨id, connection, true⟩
    ⟨.ok peer, registry.insert peer, { database with peers := database.peers ++ [peer] },
      [.added peer]⟩

def removePeer (registry : Registry) (database : Database) (id : String) : Reply Unit :=
  if !database.reachable then registry.refuse database Database.unreachable
  else if (database.peer? id).isNone then registry.refuse database (.unknownPeer id)
  else
    ⟨.ok (), registry.erase id,
      { database with peers := database.peers.filter (·.id != id) }, [.removed id]⟩

def setPeerEnabled (registry : Registry) (database : Database) (id : String) (enabled : Bool) :
    Reply Unit :=
  if !database.reachable then registry.refuse database Database.unreachable
  else if (database.peer? id).isNone then registry.refuse database (.unknownPeer id)
  else
    let registry := match registry.peer? id with
      | some peer => registry.insert { peer with enabled }
      | none => registry
    ⟨.ok (), registry,
      { database with
        peers := database.peers.map fun peer ↦ if peer.id = id then { peer with enabled } else peer },
      [.stateChanged id enabled]⟩

def setReplicating (registry : Registry) (database : Database) (on : Bool) : Reply Unit :=
  if !database.reachable then registry.refuse database Database.unreachable
  else
    ⟨.ok (), { registry with replicating := on }, { database with replicating := on },
      if registry.replicating = on then [] else [.replicating on]⟩

/-! ## Refreshing -/

/-- Forgets the cached peers that the table no longer holds. -/
def forgetMissing (registry : Registry) (rows : List Peer) : Registry × List PeerEvent :=
  let gone := (registry.cached.map (·.peer.id)).filter fun id ↦ !rows.any (·.id == id)
  (gone.foldl erase registry, gone.map .removed)

/-- Takes in one row of the table: a peer that is new, or whose flag differs. -/
def takeIn (registry : Registry) (row : Peer) : Registry × List PeerEvent :=
  match registry.peer? row.id with
  | none => (registry.insert row, [.added row])
  | some peer =>
    if peer.enabled = row.enabled then (registry, [])
    else (registry.insert row, [.stateChanged row.id row.enabled])

def takeInAll (registry : Registry) : List Peer → Registry × List PeerEvent
  | [] => (registry, [])
  | row :: rows =>
    let (registry, events) := registry.takeIn row
    let (registry, more) := registry.takeInAll rows
    (registry, events ++ more)

/-- Brings the cache up to the tables, and answers how many changes there were. -/
def refresh (registry : Registry) (database : Database) : Reply Nat :=
  if !database.reachable then registry.refuse database Database.unreachable
  else
    let (registry, gone) := registry.forgetMissing database.peers
    let (registry, changed) := registry.takeInAll database.peers
    let switched :=
      if registry.replicating = database.replicating then [] else [.replicating database.replicating]
    let events := gone ++ changed ++ switched
    ⟨.ok events.length, { registry with replicating := database.replicating }, database, events⟩

end Registry

end LogShipping
