import LogShipping.Proofs.Peer.Cache
import LogShipping.World

/-!
# A cache behind its table

Several registries may share a peer table. What one of them writes is announced by it alone, and the
others learn of it when they refresh. Until then a cache falls behind, and the table is told by the cache
together with the news, what the others announced since: what was told last about a peer decides, and
where nothing was told the cache does.
-/

namespace LogShipping

/-! ## News -/

namespace PeerEvent

/-- The peer that was added or removed. -/
def subject? : PeerEvent → Option String
  | added peer => some peer.id
  | removed id => some id
  | stateChanged .. => none
  | replicating _ => none

/-- What an announcement tells about whether a peer is registered. -/
def tells? (id : String) : PeerEvent → Option Bool
  | added peer => if peer.id = id then some true else none
  | removed gone => if gone = id then some false else none
  | stateChanged .. => none
  | replicating _ => none

theorem tells?_eq_none_iff {event : PeerEvent} {id : String} :
    event.tells? id = none ↔ event.subject? ≠ some id := by
  cases event <;> simp [tells?, subject?]

end PeerEvent

namespace Registry

/-- What was told last about whether a peer is registered. -/
def lastTold? (news : List PeerEvent) (id : String) : Option Bool :=
  (news.filterMap (·.tells? id)).getLast?

/-- The news that still matter after a registry has announced changes of its own. -/
def remaining (news events : List PeerEvent) : List PeerEvent :=
  news.filter fun event ↦ events.all fun own ↦ own.subject? != event.subject?

section News

variable {news more events : List PeerEvent} {id : String}

theorem lastTold?_append : lastTold? (news ++ more) id = (lastTold? more id).or (lastTold? news id) := by
  rw [lastTold?, List.filterMap_append, List.getLast?_append]
  rfl

theorem lastTold?_eq_none_iff :
    lastTold? events id = none ↔ ∀ event ∈ events, event.subject? ≠ some id := by
  rw [lastTold?, List.getLast?_eq_none_iff, List.filterMap_eq_nil_iff]
  simp only [PeerEvent.tells?_eq_none_iff]

/-- One's own announcements overrule the news. -/
theorem lastTold?_remaining :
    lastTold? (remaining news events) id =
      if (lastTold? events id).isSome then none else lastTold? news id := by
  split
  case isTrue htold =>
    rw [lastTold?_eq_none_iff]
    intro event hevent hsubject
    obtain ⟨-, hall⟩ := List.mem_filter.mp hevent
    rw [Option.isSome_iff_ne_none, ne_eq, lastTold?_eq_none_iff] at htold
    apply htold
    intro own hown
    rw [← hsubject]
    exact bne_iff_ne.mp (List.all_eq_true.mp hall own hown)
  case isFalse hnot =>
    rw [Option.not_isSome_iff_eq_none, lastTold?_eq_none_iff] at hnot
    rw [lastTold?, lastTold?, remaining, List.filterMap_filter]
    congr 2
    funext event
    by_cases hsubject : event.subject? = some id
    · rw [if_pos]
      rw [List.all_eq_true]
      intro own hown
      rw [hsubject]
      exact bne_iff_ne.mpr (hnot own hown)
    · rw [PeerEvent.tells?_eq_none_iff.mpr hsubject, ite_self]

end News

/-- The table is told by the cache and the news. -/
def Informed (registry : Registry) (database : Database) (news : List PeerEvent) : Prop :=
  ∀ id, (database.peer? id).isSome = (lastTold? news id).getD (registry.contains id)

/-! ## Changes of the table -/

inductive Change
  | add (id connection : String)
  | remove (id : String)
  | setEnabled (id : String) (enabled : Bool)
  | setReplicating (on : Bool)
  deriving Repr, DecidableEq

/-- A registry and its table after a change, and what the registry announced. -/
structure Effect where
  registry : Registry
  database : Database
  events : List PeerEvent

def Reply.effect {α : Type} (reply : Reply α) : Effect := ⟨reply.registry, reply.database, reply.events⟩

def make (registry : Registry) (database : Database) : Change → Effect
  | .add id connection => (registry.addPeer database id connection).effect
  | .remove id => (registry.removePeer database id).effect
  | .setEnabled id enabled => (registry.setPeerEnabled database id enabled).effect
  | .setReplicating on => (registry.setReplicating database on).effect

/-- A change tells what it does, to the table and to the cache of the registry that makes it. -/
structure Effect.Honest (registry : Registry) (database : Database) (effect : Effect) : Prop where
  table : ∀ id, (effect.database.peer? id).isSome =
    (lastTold? effect.events id).getD (database.peer? id).isSome
  cache : ∀ id, effect.registry.contains id = (lastTold? effect.events id).getD (registry.contains id)

namespace Effect.Honest

variable (registry : Registry) (database : Database)

theorem refuse {α : Type} (error : Error) :
    (registry.refuse database error : Reply α).effect.Honest registry database :=
  ⟨fun _ ↦ rfl, fun _ ↦ rfl⟩

theorem addPeer (id connection : String) :
    (registry.addPeer database id connection).effect.Honest registry database := by
  unfold Registry.addPeer
  split
  case isTrue => exact refuse registry database _
  case isFalse =>
    split
    case isTrue => exact refuse registry database _
    case isFalse =>
      constructor
      · intro other
        rw [Database.isSome_peer?, Database.isSome_peer?]
        simp only [Reply.effect, List.any_append, List.any_cons, List.any_nil, lastTold?,
          List.filterMap_cons, List.filterMap_nil, PeerEvent.tells?]
        by_cases hother : id = other <;> simp [hother]
      · intro other
        simp only [Reply.effect, contains_insert, lastTold?, List.filterMap_cons, List.filterMap_nil,
          PeerEvent.tells?]
        by_cases hother : id = other <;> simp [hother]

theorem removePeer (id : String) : (registry.removePeer database id).effect.Honest registry database := by
  unfold Registry.removePeer
  split
  case isTrue => exact refuse registry database _
  case isFalse =>
    split
    case isTrue => exact refuse registry database _
    case isFalse =>
      constructor
      · intro other
        rw [Database.isSome_peer?, Database.isSome_peer?]
        simp only [Reply.effect, List.any_filter, lastTold?, List.filterMap_cons, List.filterMap_nil,
          PeerEvent.tells?]
        by_cases hother : id = other
        · simp [hother]
        · have hrows : (fun peer : Peer ↦ peer.id != id && peer.id == other) = (·.id == other) := by
            funext peer
            by_cases hpeer : peer.id = other <;> simp [hpeer, Ne.symm hother]
          rw [hrows, if_neg hother]
          rfl
      · intro other
        simp only [Reply.effect, contains_erase, lastTold?, List.filterMap_cons, List.filterMap_nil,
          PeerEvent.tells?]
        by_cases hother : id = other
        · simp [hother]
        · simp [hother, Ne.symm hother]

theorem setPeerEnabled (id : String) (enabled : Bool) :
    (registry.setPeerEnabled database id enabled).effect.Honest registry database := by
  unfold Registry.setPeerEnabled
  split
  case isTrue => exact refuse registry database _
  case isFalse =>
    split
    case isTrue => exact refuse registry database _
    case isFalse =>
      constructor
      · intro other
        have hrows : ((·.id == other) ∘ fun peer : Peer ↦ if peer.id = id then { peer with enabled } else peer)
            = (·.id == other) := by
          funext peer
          rw [Function.comp_apply]
          split <;> rfl
        rw [Database.isSome_peer?, Database.isSome_peer?]
        simp only [Reply.effect, List.any_map, hrows]
        rfl
      · intro other
        have htold : lastTold? [PeerEvent.stateChanged id enabled] other = none := rfl
        dsimp only [Reply.effect]
        rw [htold, Option.getD_none]
        split
        case h_1 peer hpeer =>
          obtain ⟨entry, hentry, rfl⟩ := Option.map_eq_some_iff.mp hpeer
          rw [contains_insert]
          by_cases hother : entry.peer.id = other
          · have hthere : registry.contains other = true := by
              rw [contains, ← hother, id_of_cached? hentry, hentry]
              rfl
            rw [hthere, Bool.or_true]
          · rw [beq_eq_false_iff_ne.mpr hother, Bool.false_or]
        case h_2 => rfl

theorem setReplicating (on : Bool) :
    (registry.setReplicating database on).effect.Honest registry database := by
  unfold Registry.setReplicating
  split
  case isTrue => exact refuse registry database _
  case isFalse =>
    have hnothing (id : String) :
        lastTold? (if registry.replicating = on then [] else [.replicating on]) id = none := by
      split <;> rfl
    constructor
    · intro id
      simp only [Reply.effect, hnothing]
      rfl
    · intro id
      simp only [Reply.effect, hnothing]
      rfl

theorem make (change : Change) : (registry.make database change).Honest registry database := by
  cases change with
  | add id connection => exact addPeer registry database id connection
  | remove id => exact removePeer registry database id
  | setEnabled id enabled => exact setPeerEnabled registry database id enabled
  | setReplicating on => exact setReplicating registry database on

end Effect.Honest

/-! ## How far a cache is behind -/

namespace Informed

variable {registry : Registry} {database : Database} {news : List PeerEvent}

/-- A refreshed cache is not behind. -/
theorem refresh (registry : Registry) (hup : database.reachable = true) :
    (registry.refresh database).registry.Informed database [] :=
  fun id ↦ (contains_refresh registry hup id).symm

/-- What another registry does is news. -/
theorem elsewhere (h : registry.Informed database news) {other : Registry} {effect : Effect}
    (honest : effect.Honest other database) :
    registry.Informed effect.database (news ++ effect.events) := by
  intro id
  rw [honest.table, h id, lastTold?_append]
  cases lastTold? effect.events id <;> rfl

/-- What the registry does itself overrules the news. -/
theorem own (h : registry.Informed database news) {effect : Effect}
    (honest : effect.Honest registry database) :
    effect.registry.Informed effect.database (remaining news effect.events) := by
  intro id
  rw [honest.table, honest.cache, h id, lastTold?_remaining]
  cases lastTold? effect.events id <;> rfl

/-- A peer that the cache lacks is registered if and only if the last news of it is its addition. -/
theorem registered_iff (h : registry.Informed database news) {id : String}
    (hlacks : registry.contains id = false) :
    (database.peer? id).isSome = true ↔ lastTold? news id = some true := by
  rw [h id, hlacks]
  cases lastTold? news id with
  | none => simp
  | some told => simp

end Informed

end Registry

/-! ## The shared world -/

namespace World

/-- The world after a change of the peer table through its own registry. -/
def changePeers (world : World) : Registry.Change → World
  | .add id connection => (world.addPeer id connection).2
  | .remove id => (world.removePeer id).2
  | .setEnabled id enabled => (world.setPeerEnabled id enabled).2
  | .setReplicating on => (world.setReplicating on).2

/-- The world after a change of the peer table through another registry. -/
def changeElsewhere (world : World) (other : Registry) (change : Registry.Change) : World :=
  { world with database := (other.make world.database change).database }

theorem countChange_snd {α : Type} (action : String) (result : Outcome α × World) :
    ∃ measures, (countChange action result).2 = { result.2 with measures } := by
  obtain ⟨answer, world⟩ := result
  cases answer with
  | ok value => exact ⟨_, rfl⟩
  | error error => exact ⟨world.measures, rfl⟩

/-- The world's own registry makes the change. -/
theorem changePeers_eq (world : World) (change : Registry.Change) :
    (world.changePeers change).registry = (world.registry.make world.database change).registry ∧
      (world.changePeers change).database = (world.registry.make world.database change).database := by
  cases change with
  | add id connection =>
    obtain ⟨measures, hworld⟩ :=
      countChange_snd "added" (world.settlePeers (world.registry.addPeer world.database id connection))
    exact ⟨congrArg World.registry hworld, congrArg World.database hworld⟩
  | remove id =>
    obtain ⟨measures, hworld⟩ :=
      countChange_snd "removed" (world.settlePeers (world.registry.removePeer world.database id))
    exact ⟨congrArg World.registry hworld, congrArg World.database hworld⟩
  | setEnabled id enabled =>
    obtain ⟨measures, hworld⟩ := countChange_snd (if enabled then "enabled" else "disabled")
      (world.settlePeers (world.registry.setPeerEnabled world.database id enabled))
    exact ⟨congrArg World.registry hworld, congrArg World.database hworld⟩
  | setReplicating on => exact ⟨rfl, rfl⟩

end World

end LogShipping
