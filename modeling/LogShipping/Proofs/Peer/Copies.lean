import LogShipping.Proofs.Peer.Refresh
import LogShipping.Proofs.Peer.Registration
import Mathlib.Data.List.Nodup

/-!
# The copies a registry keeps

What is registered stands in four places: in the peer table, in the cached peers, in the watches that
tell the flag of a peer to those who wait at its gate, and in what was announced. An entry of the cache
holds a peer together with its gate. Here the cached peers and the watches are kept apart, as two tables
that each change by statements of its own, and followed along with the registry. As long as no other
registry writes to the database, all of them tell the same after every call, also after calls that failed
and after times in which the database could not be reached.
-/

namespace LogShipping

namespace Registry

/-! ## Peers and watches kept apart -/

/-- What is told to all who follow a registration. -/
structure Watch where
  gate : Gate
  on : Bool
  deriving Repr, DecidableEq

structure Copies where
  peers : List Peer
  watches : List Watch
  replicating : Bool
  /-- The number of the next watch. -/
  next : Nat
  deriving Repr, DecidableEq

namespace Copies

/-- The watch of a peer tells its flag. A peer without one gets a new one. -/
def tell (copies : Copies) (peer : Peer) : Copies :=
  if copies.watches.any (·.gate.peer == peer.id) then
    { copies with
      watches := copies.watches.map fun watch ↦
        if watch.gate.peer = peer.id then { watch with on := peer.enabled } else watch }
  else
    { copies with
      watches := copies.watches ++ [⟨⟨peer.id, copies.next⟩, peer.enabled⟩]
      next := copies.next + 1 }

@[simp] theorem peers_tell (copies : Copies) (peer : Peer) : (copies.tell peer).peers = copies.peers := by
  unfold tell
  split <;> rfl

@[simp] theorem replicating_tell (copies : Copies) (peer : Peer) :
    (copies.tell peer).replicating = copies.replicating := by
  unfold tell
  split <;> rfl

/-- A peer is cached in the place of the one of its name, or as a new one. -/
def hold (copies : Copies) (peer : Peer) : Copies :=
  { copies with
    peers :=
      if copies.peers.any (·.id == peer.id) then
        copies.peers.map fun old ↦ if old.id = peer.id then peer else old
      else copies.peers ++ [peer] }

/-- The watch comes first. -/
def put (copies : Copies) (peer : Peer) : Copies := (copies.tell peer).hold peer

@[simp] theorem replicating_put (copies : Copies) (peer : Peer) :
    (copies.put peer).replicating = copies.replicating := replicating_tell copies peer

/-- A peer of a new name is cached after the others. -/
theorem peers_put {copies : Copies} {peer : Peer} (hnew : copies.peers.any (·.id == peer.id) = false) :
    (copies.put peer).peers = copies.peers ++ [peer] := by
  simp only [put, hold, peers_tell, hnew, Bool.false_eq_true, if_false]

def discard (copies : Copies) (id : String) : Copies :=
  { copies with
    peers := copies.peers.filter (·.id != id)
    watches := copies.watches.filter (·.gate.peer != id) }

/-- The cached peer and the watch each take the flag, if there is one. -/
def setEnabled (copies : Copies) (id : String) (enabled : Bool) : Copies :=
  { copies with
    peers := copies.peers.map fun peer ↦ if peer.id = id then { peer with enabled } else peer
    watches := copies.watches.map fun watch ↦ if watch.gate.peer = id then { watch with on := enabled } else watch }

/-- What a change does to the copies once it is made in the database. -/
def update (copies : Copies) : Change → Copies
  | .add id connection => copies.put ⟨id, connection, true⟩
  | .remove id => copies.discard id
  | .setEnabled id enabled => copies.setEnabled id enabled
  | .setReplicating on => { copies with replicating := on }

/-- The copies of a database that is loaded for the first time. -/
def load (database : Database) : Copies := database.peers.foldl put ⟨[], [], database.replicating, 0⟩

end Copies

def CachedPeer.watch (entry : CachedPeer) : Watch := ⟨⟨entry.peer.id, entry.registration⟩, entry.peer.enabled⟩

/-- What a registry caches, taken apart. -/
def copies (registry : Registry) : Copies :=
  ⟨registry.cached.map (·.peer), registry.cached.map CachedPeer.watch, registry.replicating, registry.next⟩

/-- No two cached peers have the same name. -/
def KeyedCache (registry : Registry) : Prop := (registry.cached.map (·.peer.id)).Nodup

section Parts

variable (registry : Registry)

theorem any_peers_copies (id : String) : registry.copies.peers.any (·.id == id) = registry.contains id := by
  rw [contains, cached?, List.isSome_find?, copies, List.any_map]
  rfl

theorem any_watches_copies (id : String) :
    registry.copies.watches.any (·.gate.peer == id) = registry.contains id := by
  rw [contains, cached?, List.isSome_find?, copies, List.any_map]
  rfl

theorem copies_insert (peer : Peer) : (registry.insert peer).copies = registry.copies.put peer := by
  rw [Copies.put, Copies.tell, any_watches_copies, insert]
  split
  case isTrue hthere =>
    rw [Copies.hold]
    dsimp only
    rw [any_peers_copies, if_pos hthere]
    simp only [copies, List.map_map, Copies.mk.injEq, and_true]
    constructor
    · apply List.map_congr_left
      intro entry _
      simp only [Function.comp_apply]
      split <;> rfl
    · apply List.map_congr_left
      intro entry _
      by_cases hid : entry.peer.id = peer.id <;> simp [CachedPeer.watch, hid]
  case isFalse hnot =>
    rw [Copies.hold]
    dsimp only
    rw [any_peers_copies, if_neg hnot]
    simp [copies, CachedPeer.watch]

theorem copies_erase (id : String) : (registry.erase id).copies = registry.copies.discard id := by
  simp only [copies, erase, Copies.discard, List.filter_map]
  rfl

variable {registry}

/-- Every cached peer is the one of its name. -/
theorem KeyedCache.peer?_of_mem (h : registry.KeyedCache) {entry : CachedPeer}
    (hmem : entry ∈ registry.cached) : registry.peer? entry.peer.id = some entry.peer := by
  have hthere : registry.contains entry.peer.id = true := by
    rw [contains, cached?, List.isSome_find?, List.any_eq_true]
    exact ⟨entry, hmem, beq_self_eq_true _⟩
  obtain ⟨found, hfound⟩ := Option.isSome_iff_exists.mp hthere
  have hsame : found = entry :=
    List.inj_on_of_nodup_map h (List.mem_of_find?_eq_some hfound) hmem (id_of_cached? hfound)
  rw [peer?, hfound, hsame]
  rfl

/-- The flag of a cached peer is changed in both places. -/
theorem KeyedCache.copies_setEnabled (h : registry.KeyedCache) {id : String} {peer : Peer}
    (hpeer : registry.peer? id = some peer) (enabled : Bool) :
    (registry.insert { peer with enabled }).copies = registry.copies.setEnabled id enabled := by
  have hid : peer.id = id := id_of_peer? hpeer
  have hthere : registry.contains peer.id = true := by
    rw [contains, ← Option.isSome_map, hid]
    exact Option.isSome_iff_exists.mpr ⟨peer, hpeer⟩
  have hpeers (entry : CachedPeer) (hmem : entry ∈ registry.cached) (hname : entry.peer.id = id) :
      entry.peer = peer := by
    have hfound := h.peer?_of_mem hmem
    rw [hname, hpeer] at hfound
    exact (Option.some.inj hfound).symm
  rw [insert, if_pos hthere]
  simp only [copies, Copies.setEnabled, List.map_map, Copies.mk.injEq, and_true, hid]
  constructor
  · apply List.map_congr_left
    intro entry hmem
    simp only [Function.comp_apply]
    split
    case isTrue hname => rw [hpeers entry hmem hname, ← hid]
    case isFalse => rfl
  · apply List.map_congr_left
    intro entry _
    by_cases hname : entry.peer.id = id <;> simp [CachedPeer.watch, hname]

end Parts

/-! ## What a call does -/

def Reply.fault? {α : Type} (reply : Reply α) : Option Error :=
  match reply.answer with
  | .ok _ => none
  | .error error => some error

/-- The error that a call answers, if it fails. -/
def fault? (registry : Registry) (database : Database) : Change → Option Error
  | .add id connection => (registry.addPeer database id connection).fault?
  | .remove id => (registry.removePeer database id).fault?
  | .setEnabled id enabled => (registry.setPeerEnabled database id enabled).fault?
  | .setReplicating on => (registry.setReplicating database on).fault?

namespace Change

/-- A peer is added if there is none of the name, and any other change of a peer needs one. -/
def Admitted (database : Database) : Change → Prop
  | add id _ => database.peer? id = none
  | remove id | setEnabled id _ => (database.peer? id).isSome = true
  | setReplicating _ => True

def table (database : Database) : Change → Database
  | add id connection => { database with peers := database.peers ++ [⟨id, connection, true⟩] }
  | remove id => { database with peers := database.peers.filter (·.id != id) }
  | setEnabled id enabled =>
    { database with
      peers := database.peers.map fun peer ↦ if peer.id = id then { peer with enabled } else peer }
  | setReplicating on => { database with replicating := on }

def cache (registry : Registry) : Change → Registry
  | add id connection => registry.insert ⟨id, connection, true⟩
  | remove id => registry.erase id
  | setEnabled id enabled =>
    match registry.peer? id with
    | some peer => registry.insert { peer with enabled }
    | none => registry
  | setReplicating on => { registry with replicating := on }

def announced (registry : Registry) : Change → List PeerEvent
  | add id connection => [.added ⟨id, connection, true⟩]
  | remove id => [.removed id]
  | setEnabled id enabled => [.stateChanged id enabled]
  | setReplicating on => if registry.replicating = on then [] else [.replicating on]

end Change

section Calls

variable {registry : Registry} {database : Database}

/-- An operation that makes two checks is refused, with nothing changed, or passes both. -/
theorem checks_cases {α : Type} {first second : Prop} [Decidable first] [Decidable second]
    {firstError secondError : Error} {reply : Reply α} (hok : reply.fault? = none) {checked : Reply α}
    (h : checked = if first then registry.refuse database firstError
      else if second then registry.refuse database secondError else reply) :
    (∃ error, checked.fault? = some error ∧ checked.effect = ⟨registry, database, []⟩) ∨
      (checked.fault? = none ∧ ¬second ∧ checked.effect = reply.effect) := by
  split at h
  case isTrue => exact .inl ⟨firstError, by rw [h]; rfl, by rw [h]; rfl⟩
  case isFalse =>
    split at h
    case isTrue => exact .inl ⟨secondError, by rw [h]; rfl, by rw [h]; rfl⟩
    case isFalse hsecond => exact .inr ⟨by rw [h]; exact hok, hsecond, by rw [h]⟩

/-- A call fails, and then nothing is changed or announced, whatever the error is. Or it makes the change
in the table and in the cache, and announces it. -/
theorem make_cases (registry : Registry) (database : Database) (change : Change) :
    (∃ error, registry.fault? database change = some error ∧
      registry.make database change = ⟨registry, database, []⟩) ∨
    (registry.fault? database change = none ∧ change.Admitted database ∧
      registry.make database change =
        ⟨change.cache registry, change.table database, change.announced registry⟩) := by
  cases change with
  | add id connection =>
    rcases checks_cases rfl (show registry.addPeer database id connection = _ from rfl) with
      hfault | ⟨hok, habsent, hmade⟩
    · exact .inl hfault
    · exact .inr ⟨hok, Option.not_isSome_iff_eq_none.mp habsent, hmade⟩
  | remove id =>
    rcases checks_cases rfl (show registry.removePeer database id = _ from rfl) with
      hfault | ⟨hok, hthere, hmade⟩
    · exact .inl hfault
    · refine .inr ⟨hok, Option.isSome_iff_ne_none.mpr fun hnone ↦ hthere ?_, hmade⟩
      rw [hnone]
      rfl
  | setEnabled id enabled =>
    rcases checks_cases rfl (show registry.setPeerEnabled database id enabled = _ from rfl) with
      hfault | ⟨hok, hthere, hmade⟩
    · exact .inl hfault
    · refine .inr ⟨hok, Option.isSome_iff_ne_none.mpr fun hnone ↦ hthere ?_, hmade⟩
      rw [hnone]
      rfl
  | setReplicating on =>
    simp only [fault?, make, setReplicating]
    split
    case isTrue => exact .inl ⟨Database.unreachable, rfl, rfl⟩
    case isFalse => exact .inr ⟨rfl, trivial, rfl⟩

theorem peer?_of_copies (hpeers : registry.copies.peers = database.peers) (id : String) :
    registry.peer? id = database.peer? id := by
  rw [peer?, cached?, Database.peer?, ← hpeers, copies, List.find?_map]
  rfl

/-- The two tables of a cache that holds the peer table change as the whole does. -/
theorem copies_cache (hkeyed : database.KeyedPeers) (hpeers : registry.copies.peers = database.peers)
    {change : Change} (hadmitted : change.Admitted database) :
    (change.cache registry).copies = registry.copies.update change := by
  cases change with
  | add id connection => exact copies_insert registry _
  | remove id => exact copies_erase registry id
  | setReplicating on => rfl
  | setEnabled id enabled =>
    have hcache : registry.KeyedCache := by
      rw [Database.KeyedPeers, ← hpeers, copies, List.map_map] at hkeyed
      exact hkeyed
    obtain ⟨peer, hpeer⟩ := Option.isSome_iff_exists.mp hadmitted
    rw [← peer?_of_copies hpeers] at hpeer
    rw [Change.cache, hpeer]
    exact hcache.copies_setEnabled hpeer enabled

/-- The cached peers change as the rows of the table do. -/
theorem peers_update {copies : Copies} (hpeers : copies.peers = database.peers) {change : Change}
    (hadmitted : change.Admitted database) : (copies.update change).peers = (change.table database).peers := by
  cases change with
  | add id connection =>
    have hnew : copies.peers.any (·.id == id) = false := by
      rw [hpeers, ← Database.isSome_peer?, hadmitted]
      rfl
    rw [Copies.update, Copies.peers_put hnew, hpeers]
    rfl
  | remove id => exact congrArg (List.filter _) hpeers
  | setEnabled id enabled => exact congrArg (List.map _) hpeers
  | setReplicating on => exact hpeers

theorem replicating_update {copies : Copies} (hswitch : copies.replicating = database.replicating)
    (change : Change) : (copies.update change).replicating = (change.table database).replicating := by
  cases change with
  | add id connection => exact (Copies.replicating_put copies _).trans hswitch
  | remove id => exact hswitch
  | setEnabled id enabled => exact hswitch
  | setReplicating on => rfl

/-- Whoever knew the tables knows them after the announcements of a change. -/
theorem replay_announced (hswitch : registry.replicating = database.replicating) {change : Change}
    (hadmitted : change.Admitted database) :
    database.view.replay (change.announced registry) = (change.table database).view := by
  cases change with
  | add id connection =>
    ext other : 2
    · show (if other = id then some ⟨id, connection, true⟩ else database.peer? other) =
        Database.peer? { database with peers := database.peers ++ [⟨id, connection, true⟩] } other
      rw [Database.peer?_append]
      by_cases hother : other = id
      · rw [if_pos hother, if_pos hother.symm, hother, hadmitted, Option.none_or]
      · rw [if_neg hother, if_neg (Ne.symm hother), Option.or_none]
    · rfl
  | remove id =>
    ext other : 2
    · exact (Database.peer?_filter database id other).symm
    · rfl
  | setEnabled id enabled =>
    ext other : 2
    · show (if other = id then (database.peer? other).map ({ · with enabled }) else database.peer? other) =
        Database.peer? { database with peers := database.peers.map _ } other
      rw [Database.peer?_setEnabled]
      cases hrow : database.peer? other with
      | none => exact ite_self none
      | some row =>
        have hname : row.id = other := by
          have hfound := List.find?_some hrow
          exact beq_iff_eq.mp hfound
        rw [Option.map_some, Option.map_some, hname]
        exact (apply_ite some _ _ _).symm
    · rfl
  | setReplicating on =>
    show database.view.replay (if registry.replicating = on then [] else [.replicating on]) = _
    split
    case isTrue hsame =>
      ext other : 2
      · rfl
      · exact hswitch.symm.trans hsame
    case isFalse => rfl

end Calls

/-! ## Runs of calls -/

/-- A registry with its database, the copies it keeps, and all that was announced. -/
structure Account where
  registry : Registry
  copies : Copies
  database : Database
  events : List PeerEvent

inductive Step
  | call (change : Change)
  /-- The queues of the database change, or whether it can be reached. -/
  | elsewhere (queues : QueueTables) (reachable : Bool)

namespace Account

def opening (registry : Registry) (database : Database) : Account := ⟨registry, .load database, database, []⟩

def call (account : Account) (change : Change) : Account :=
  let effect := account.registry.make account.database change
  { registry := effect.registry
    copies :=
      match account.registry.fault? account.database change with
      | none => account.copies.update change
      | some _ => account.copies
    database := effect.database
    events := account.events ++ effect.events }

def take (account : Account) : Step → Account
  | .call change => account.call change
  | .elsewhere queues reachable =>
    { account with database := { account.database with queues, reachable } }

def run (account : Account) (steps : List Step) : Account := steps.foldl take account

end Account

/-- All the places where it stands tell the same of what is registered. -/
structure InStep (first : PeerView) (account : Account) : Prop where
  peers : account.copies.peers = account.database.peers
  keyed : (account.copies.peers.map (·.id)).Nodup
  /-- A cached peer has one watch, which tells its flag. -/
  watches : account.copies.watches.map (fun watch ↦ (watch.gate.peer, watch.on)) =
    account.copies.peers.map fun peer ↦ (peer.id, peer.enabled)
  switch : account.copies.replicating = account.database.replicating
  /-- Whoever knew the peers at first, and followed the announcements, knows the cached ones. -/
  news : first.replay account.events = ⟨fun id ↦ account.copies.peers.find? (·.id == id), account.copies.replicating⟩
  /-- The copies are what the registry answers from. -/
  whole : account.registry.copies = account.copies
  refused : ∀ change error, account.registry.fault? account.database change = some error →
    account.call change = account

namespace InStep

variable {first : PeerView} {account : Account}

/-- What is left to show of copies that are those of the registry. -/
theorem of_whole (hwhole : account.registry.copies = account.copies)
    (hpeers : account.copies.peers = account.database.peers) (hkeyed : account.database.KeyedPeers)
    (hswitch : account.copies.replicating = account.database.replicating)
    (hnews : first.replay account.events = account.database.view) : InStep first account where
  peers := hpeers
  keyed := by
    rw [hpeers]
    exact hkeyed
  watches := by
    rw [← hwhole, copies, List.map_map, List.map_map]
    rfl
  switch := hswitch
  news := by
    rw [hnews, hpeers, hswitch]
    rfl
  whole := hwhole
  refused := by
    intro change error herror
    rcases make_cases account.registry account.database change with ⟨other, -, hmade⟩ | ⟨hok, -⟩
    · simp only [Account.call, hmade, herror, List.append_nil]
    · rw [herror] at hok
      cases hok

theorem view_eq (h : InStep first account) : first.replay account.events = account.database.view := by
  rw [h.news, h.peers, h.switch]
  rfl

theorem keyedPeers (h : InStep first account) : account.database.KeyedPeers := by
  rw [Database.KeyedPeers, ← h.peers]
  exact h.keyed

theorem call (h : InStep first account) (change : Change) : InStep first (account.call change) := by
  have hkeyed := h.keyedPeers
  have hkept : (account.registry.make account.database change).database.KeyedPeers :=
    keyedPeers_make hkeyed change
  rcases make_cases account.registry account.database change with ⟨error, herror, -⟩ | ⟨hok, hadmitted, hmade⟩
  · rw [h.refused change error herror]
    exact h
  · have hheld : account.registry.copies.peers = account.database.peers := by rw [h.whole, h.peers]
    have hswitch : account.registry.replicating = account.database.replicating := by
      rw [← h.switch, ← h.whole]
      rfl
    rw [hmade] at hkept
    have hafter : account.call change = ⟨change.cache account.registry, account.copies.update change,
        change.table account.database, account.events ++ change.announced account.registry⟩ := by
      simp only [Account.call, hmade, hok]
    rw [hafter]
    apply of_whole
    · exact (copies_cache hkeyed hheld hadmitted).trans (congrArg (·.update change) h.whole)
    · exact peers_update h.peers hadmitted
    · exact hkept
    · exact replicating_update h.switch change
    · rw [PeerView.replay_append, h.view_eq]
      exact replay_announced hswitch hadmitted

theorem take (h : InStep first account) (step : Step) : InStep first (account.take step) := by
  cases step with
  | call change => exact h.call change
  | elsewhere queues reachable =>
    exact of_whole h.whole h.peers h.keyedPeers h.switch h.view_eq

theorem run (h : InStep first account) (steps : List Step) : InStep first (account.run steps) := by
  induction steps generalizing account with
  | nil => exact h
  | cons step rest ih => exact ih (h.take step)

end InStep

/-- Loading fills the copies as it fills the cache, row by row. -/
theorem copies_foldl_insert (rows : List Peer) (registry : Registry) :
    (rows.foldl insert registry).copies = rows.foldl Copies.put registry.copies := by
  induction rows generalizing registry with
  | nil => rfl
  | cons row rest ih => rw [List.foldl_cons, List.foldl_cons, ih, copies_insert]

theorem peers_foldl_put {rows : List Peer} (copies : Copies)
    (hkeyed : ((copies.peers ++ rows).map (·.id)).Nodup) :
    (rows.foldl Copies.put copies).peers = copies.peers ++ rows := by
  induction rows generalizing copies with
  | nil => exact (List.append_nil _).symm
  | cons row rest ih =>
    have hnew : copies.peers.any (·.id == row.id) = false := by
      rw [List.any_eq_false]
      intro old hold hsame
      rw [List.map_append, List.nodup_append] at hkeyed
      exact hkeyed.2.2 _ (List.mem_map_of_mem hold) _ (List.mem_map_of_mem List.mem_cons_self)
        (beq_iff_eq.mp hsame)
    have hrow := Copies.peers_put hnew
    rw [List.foldl_cons, ih, hrow, List.append_assoc, List.singleton_append]
    rw [hrow, List.append_assoc, List.singleton_append]
    exact hkeyed

theorem replicating_foldl_put (rows : List Peer) (copies : Copies) :
    (rows.foldl Copies.put copies).replicating = copies.replicating := by
  induction rows generalizing copies with
  | nil => rfl
  | cons row rest ih => rw [List.foldl_cons, ih, Copies.replicating_put]

theorem view_eq_of_copies {registry : Registry} {database : Database}
    (hpeers : registry.copies.peers = database.peers)
    (hswitch : registry.copies.replicating = database.replicating) : registry.view = database.view := by
  ext id : 2
  · exact peer?_of_copies hpeers id
  · exact hswitch

theorem inStep_opening {registry : Registry} {database : Database} (hkeyed : database.KeyedPeers)
    (hload : load database = .ok registry) : InStep registry.view (.opening registry database) := by
  have hcache : registry.copies = .load database := by
    unfold load at hload
    split at hload
    case isTrue =>
      cases hload
      exact copies_foldl_insert database.peers _
    case isFalse => cases hload
  have hpeers : (Copies.load database).peers = database.peers := peers_foldl_put _ hkeyed
  have hswitch : (Copies.load database).replicating = database.replicating :=
    replicating_foldl_put database.peers _
  apply InStep.of_whole hcache hpeers hkeyed hswitch
  exact view_eq_of_copies (hcache ▸ hpeers) (hcache ▸ hswitch)

/-- A registry that alone uses its database, and every copy it keeps of it, are in step with the database
from the time it is loaded on, whatever is called. -/
theorem inStep_run {registry : Registry} {database : Database} (hkeyed : database.KeyedPeers)
    (hload : load database = .ok registry) (steps : List Step) :
    InStep registry.view ((Account.opening registry database).run steps) :=
  (inStep_opening hkeyed hload).run steps

namespace Readded

/-- A database that has one peer, which is disabled. -/
def database : Database := { Database.empty with peers := [⟨"east", "east:7", false⟩] }

def registry : Registry := ⟨[⟨⟨"east", "east:7", false⟩, 0⟩], true, 1⟩

/-- A peer is added, removed and added again, with calls in between that are refused. -/
def steps : List Step :=
  [.call (.add "west" "west:1"), .call (.add "west" "west:2"), .call (.setEnabled "west" false),
    .call (.remove "west"), .call (.setEnabled "west" true), .call (.remove "west"),
    .elsewhere .empty false, .call (.add "west" "west:3"), .elsewhere .empty true,
    .call (.add "west" "west:4"), .call (.setReplicating false), .call (.setReplicating false)]

/-- The peer that was added again has the second watch of its name. -/
theorem inStep_readded :
    database.KeyedPeers ∧ load database = .ok registry ∧
      InStep registry.view ((Account.opening registry database).run steps) ∧
      ((Account.opening registry database).run steps).copies =
        ⟨[⟨"east", "east:7", false⟩, ⟨"west", "west:4", true⟩],
          [⟨⟨"east", 0⟩, false⟩, ⟨⟨"west", 2⟩, true⟩], false, 3⟩ :=
  have hkeyed : database.KeyedPeers := List.nodup_singleton _
  ⟨hkeyed, rfl, inStep_run hkeyed rfl steps, by decide⟩

end Readded

end Registry

end LogShipping
