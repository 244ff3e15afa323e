import LogShipping.Proofs.Engine.Ground
import LogShipping.Proofs.Failover.Steps
import LogShipping.Proofs.Peer.News
import Mathlib.Logic.Relation

/-!
# Which queues are dropped for want of a peer

A failover pass drops the queues of peers that the registry's cache does not hold, and so does an engine
when it takes up the queues of its node. The cache may be behind the table: peers come and go through
other registries, before a pass, between two of its steps, or while it runs. A step drops a queue whose
peer is registered if and only if it turns to that queue while the cache lacks the peer and the last news
of the peer is its addition. As long as the cache knows of every addition, only queues of peers that are
not registered are dropped.
-/

namespace LogShipping

namespace Engine

open Failover

/-! ## Watching an engine -/

/-- What an engine is about to do with queues whose peers may be gone. -/
inductive Task
  | pass (pass : Pass)
  /-- Take up these queues, one after the other. -/
  | adoption (keys : List QueueKey)

/-- The queue that is turned to next. -/
def Task.key? : Task → Option QueueKey
  | .pass (.choosing _ (key :: _) _) => some key
  | .adoption (key :: _) => some key
  | _ => none

/-- An engine at a task, and what other registries have announced since its own was brought up to the
table. -/
structure Watch where
  turn : Turn
  task : Task
  news : List PeerEvent

namespace Watch

/-- The next step of a failover pass in the engine's world. -/
def passStep (turn : Turn) (pass : Pass) : Pass.Turn :=
  pass.step turn.world.registry turn.world.database turn.world.membership

/-- The engine after a pass has changed the database and announced something. -/
def settle (turn : Turn) (database : Database) (membership : Membership) (events : List QueueEvent) :
    Turn :=
  { turn with
    world := { turn.world with
      database, membership
      queueFeed := turn.world.queueFeed.announceAll events } }

/-- The next step of the task. An adoption that cannot drop a queue is given up. -/
def next (watch : Watch) : Watch :=
  match watch.task with
  | .pass pass =>
    let after := passStep watch.turn pass
    { watch with
      turn := settle watch.turn after.database after.membership after.events
      task := .pass after.pass }
  | .adoption [] => watch
  | .adoption (key :: keys) =>
    match watch.turn.adopt [key] with
    | (.ok _, turn) => { watch with turn, task := .adoption keys }
    | (.error _, turn) => { watch with turn, task := .adoption [] }

def isRegistered (watch : Watch) (peer : String) : Bool :=
  (watch.turn.world.database.peer? peer).isSome

def hasQueue (watch : Watch) (key : QueueKey) : Bool :=
  (watch.turn.world.database.queues.offset? key).isSome

/-- The next step drops the queue. A pass may also hand it over, which is not announced as a drop. -/
def Drops (watch : Watch) (key : QueueKey) : Prop :=
  match watch.task with
  | .pass pass => .dropped key ∈ (passStep watch.turn pass).events
  | .adoption _ => watch.hasQueue key = true ∧ watch.next.hasQueue key = false

/-- The next step looks for the queue's peer in the cache and does not find it. -/
structure Misses (watch : Watch) (key : QueueKey) : Prop where
  turned : watch.task.key? = some key
  up : watch.turn.world.database.reachable = true
  there : watch.hasQueue key = true
  lacks : watch.turn.world.registry.contains key.peer = false

/-- One step of the engine's task, or of anyone else. -/
inductive Moves : Watch → Watch → Prop
  | next (watch : Watch) : Moves watch watch.next
  | begin (watch : Watch) (task : Task) : Moves watch { watch with task }
  | refresh (watch : Watch) :
      Moves watch { watch with
        turn := { watch.turn with world := watch.turn.world.refresh.2 }
        news := if watch.turn.world.database.reachable then [] else watch.news }
  /-- The peer table is changed through the engine's own registry. -/
  | own (watch : Watch) (change : Registry.Change) :
      Moves watch { watch with
        turn := { watch.turn with world := watch.turn.world.changePeers change }
        news := Registry.remaining watch.news
          (watch.turn.world.registry.make watch.turn.world.database change).events }
  /-- The peer table is changed through any other registry. -/
  | elsewhere (watch : Watch) (other : Registry) (change : Registry.Change) :
      Moves watch { watch with
        turn := { watch.turn with world := watch.turn.world.changeElsewhere other change }
        news := watch.news ++ (other.make watch.turn.world.database change).events }
  /-- Anything that is nothing to the peers: queues come and go, nodes live and die, the engine works, the
  database is cut off. -/
  | otherwise (watch : Watch) {turn : Turn}
      (htable : ∀ id, (turn.world.database.peer? id).isSome = watch.isRegistered id)
      (hcache : ∀ id, turn.world.registry.contains id = watch.turn.world.registry.contains id) :
      Moves watch { watch with turn }

def Leads : Watch → Watch → Prop := Relation.ReflTransGen Moves

/-! ## What engines do is so watched -/

section Courses

variable (news : List PeerEvent)

theorem Leads.single {watch after : Watch} (h : Moves watch after) : Leads watch after :=
  Relation.ReflTransGen.single h

/-- Queues are taken up one after the other. -/
theorem adopt_cons (turn : Turn) (key : QueueKey) (keys : List QueueKey) :
    turn.adopt (key :: keys) =
      match turn.adopt [key] with
      | (.ok _, turn) => turn.adopt keys
      | (.error error, turn) => (.error error, turn) := by
  simp only [Turn.adopt]
  split
  case isTrue => rfl
  case isFalse => split <;> rfl

/-- An engine that takes up queues. -/
theorem leads_adopt (turn : Turn) (keys : List QueueKey) :
    Leads ⟨turn, .adoption keys, news⟩ ⟨(turn.adopt keys).2, .adoption [], news⟩ := by
  induction keys generalizing turn with
  | nil => exact .refl
  | cons key keys ih =>
    apply Relation.ReflTransGen.head (.next _)
    rw [adopt_cons]
    unfold next
    dsimp only
    split
    case h_1 answer after hadopt => exact ih after
    case h_2 error after hadopt => exact .refl

theorem leads_adoptOwned (turn : Turn) :
    ∃ keys, Leads ⟨turn, .adoption keys, news⟩ ⟨turn.adoptOwned.2, .adoption [], news⟩ := by
  unfold Turn.adoptOwned
  split
  case h_1 => exact ⟨[], .refl⟩
  case h_2 keys _ => exact ⟨keys, leads_adopt news turn keys⟩

/-- Two changes of the database in a row. -/
theorem settle_settle (turn : Turn) (database later : Database) (membership changed : Membership)
    (events more : List QueueEvent) :
    settle (settle turn database membership events) later changed more =
      settle turn later changed (events ++ more) := by
  rw [settle, settle, settle, Feed.announceAll, Feed.announceAll, Feed.announceAll, List.foldl_append]

/-- A pass that nobody interrupts. -/
theorem leads_runFor (steps : Nat) (turn : Turn) (pass : Pass) (events : List QueueEvent) :
    let finished := Pass.runFor turn.world.registry steps
      ⟨pass, turn.world.database, turn.world.membership, events⟩
    ∃ task more, finished.events = events ++ more ∧
      Leads ⟨turn, .pass pass, news⟩
        ⟨settle turn finished.database finished.membership more, task, news⟩ := by
  induction steps generalizing turn pass events with
  | zero => exact ⟨.pass pass, [], (List.append_nil events).symm, .refl⟩
  | succ steps ih =>
    dsimp only
    unfold Pass.runFor
    split
    case h_1 answer _ => exact ⟨.pass pass, [], (List.append_nil events).symm, .refl⟩
    case h_2 =>
      obtain ⟨task, more, hevents, hleads⟩ :=
        ih (settle turn (passStep turn pass).database (passStep turn pass).membership
          (passStep turn pass).events) (passStep turn pass).pass (events ++ (passStep turn pass).events)
      refine ⟨task, (passStep turn pass).events ++ more, ?_, ?_⟩
      · rw [← List.append_assoc]
        exact hevents
      · rw [← settle_settle]
        exact Relation.ReflTransGen.head (.next _) hleads

theorem leads_run (turn : Turn) (pass : Pass) :
    let finished := pass.run turn.world.registry turn.world.database turn.world.membership
    ∃ task, Leads ⟨turn, .pass pass, news⟩
      ⟨settle turn finished.database finished.membership finished.events, task, news⟩ := by
  obtain ⟨task, more, hevents, hleads⟩ := leads_runFor news
    (Pass.stepsFor turn.world.database turn.world.membership) turn pass []
  refine ⟨task, ?_⟩
  show Leads _ ⟨settle turn _ _ (Pass.runFor _ _ _).events, task, news⟩
  rw [hevents]
  exact hleads

/-- A coordinator that takes over the queues of a dead node. -/
theorem leads_claim (turn : Turn) (node : String) :
    ∃ task, Leads ⟨turn, .pass (.asking node), news⟩ ⟨turn.claim node, task, news⟩ := by
  obtain ⟨task, hleads⟩ := leads_run news turn (.asking node)
  exact ⟨task, hleads.tail (.otherwise _ (fun _ ↦ rfl) fun _ ↦ rfl)⟩

/-- One group of queues after the other. -/
theorem leads_reassignAll (groups : List (List QueueKey)) (turn : Turn) (task : Task)
    (answer : Outcome Report) (events : List QueueEvent) :
    let finished := reassignAll turn.world.registry
      ⟨answer, turn.world.database, turn.world.membership, events⟩ groups
    ∃ last more, finished.events = events ++ more ∧
      Leads ⟨turn, task, news⟩ ⟨settle turn finished.database finished.membership more, last, news⟩ := by
  induction groups generalizing turn task answer events with
  | nil => exact ⟨task, [], (List.append_nil events).symm, .refl⟩
  | cons queues groups ih =>
    dsimp only
    unfold reassignAll
    cases answer with
    | error error => exact ⟨task, [], (List.append_nil events).symm, .refl⟩
    | ok report =>
      obtain ⟨between, hpass⟩ := leads_run news turn (.counting queues)
      generalize (Pass.counting queues).run turn.world.registry turn.world.database
        turn.world.membership = next at hpass ⊢
      obtain ⟨last, more, hevents, hleads⟩ := ih (settle turn next.database next.membership next.events)
        between (next.answer.map report.append) (events ++ next.events)
      refine ⟨last, next.events ++ more, ?_, ?_⟩
      · rw [← List.append_assoc]
        exact hevents
      · rw [← settle_settle]
        exact (Relation.ReflTransGen.head (.begin _ _) hpass).trans hleads

/-- A coordinator that looks for queues without a live owner. -/
theorem leads_sweep (turn : Turn) (task : Task) :
    ∃ last, Leads ⟨turn, task, news⟩ ⟨turn.sweep, last, news⟩ := by
  have hothers {other : Turn} (hworld : other.world.database = turn.world.database)
      (hregistry : other.world.registry = turn.world.registry) :
      Leads ⟨turn, task, news⟩ ⟨other, task, news⟩ := by
    refine .single (.otherwise _ (fun id ↦ ?_) fun id ↦ ?_)
    · rw [hworld]
      rfl
    · rw [hregistry]
  unfold Turn.sweep World.sweep sweep
  split
  case h_1 => exact ⟨task, hothers rfl rfl⟩
  case h_2 keys _ =>
    dsimp only
    generalize deadKeys turn.world.membership keys = asked
    obtain ⟨dead, membership⟩ := asked
    let asking : Turn := { turn with world := { turn.world with membership } }
    have hasked : Leads ⟨turn, task, news⟩ ⟨asking, task, news⟩ := hothers rfl rfl
    obtain ⟨last, more, -, hleads⟩ := leads_reassignAll news (byOwner dead) asking task (.ok .empty) []
    exact ⟨last, hasked.trans (hleads.tail (.otherwise _ (fun _ ↦ rfl) fun _ ↦ rfl))⟩

end Courses

/-! ## What a step drops -/

section Steps

variable {turn : Turn} {pass : Pass} {key first : QueueKey} {watch after : Watch}

/-- A pass drops a queue whose peer it does not find. -/
theorem call?_eq_drop_iff {registry : Registry} {membership : Membership} :
    pass.call? registry membership = some (.drop key) ↔
      (Task.pass pass).key? = some key ∧ registry.contains key.peer = false := by
  cases pass with
  | asking | gathering | counting | listing | done | failed => simp [Pass.call?, Task.key?]
  | choosing survey queues report =>
    cases queues with
    | nil => simp [Pass.call?, Task.key?]
    | cons first queues =>
      simp only [Pass.call?, Task.key?, Option.some.injEq]
      constructor
      · intro h
        split at h
        case isTrue => cases h
        case isFalse hlacks =>
          obtain rfl : first = key := QueueStore.Call.drop.inj (Option.some.inj h)
          exact ⟨rfl, Bool.eq_false_iff.mpr hlacks⟩
      · rintro ⟨rfl, hlacks⟩
        rw [hlacks, if_neg Bool.false_ne_true]
  | offering survey first nodes queues report =>
    cases nodes <;> simp [Pass.call?, Task.key?]

theorem dropped_mem_passStep_iff :
    .dropped key ∈ (passStep turn pass).events ↔
      (Task.pass pass).key? = some key ∧ turn.world.registry.contains key.peer = false ∧
        turn.world.database.reachable = true ∧
        (turn.world.database.queues.offset? key).isSome = true := by
  have hevents : (passStep turn pass).events = _ :=
    congrArg QueueStore.Effect.events
      (pass.effect_step turn.world.registry turn.world.database turn.world.membership)
  rw [hevents, ← and_assoc, ← call?_eq_drop_iff]
  cases pass.call? turn.world.registry turn.world.membership with
  | none => simp
  | some call => simp [QueueStore.dropped_mem_events_iff]

/-- The first queue of an adoption is taken up, or dropped for want of its peer. -/
theorem adopt_singleton_cases (turn : Turn) (key : QueueKey) :
    (turn.world.registry.contains key.peer = true ∧ turn.adopt [key] = (.ok (), turn.spawn key)) ∨
    (turn.world.registry.contains key.peer = false ∧
      (turn.adopt [key]).2 = { turn with world := (turn.world.dropQueue key).2 }) := by
  cases hcontains : turn.world.registry.contains key.peer with
  | true =>
    refine .inl ⟨rfl, ?_⟩
    rw [Turn.adopt, if_pos hcontains]
    rfl
  | false =>
    refine .inr ⟨rfl, ?_⟩
    rw [Turn.adopt, hcontains, if_neg Bool.false_ne_true]
    split
    case h_1 answer world hdrop => rw [hdrop]; rfl
    case h_2 error world hdrop => rw [hdrop]

theorem hasQueue_adopt_iff :
    ((turn.world.database.queues.offset? key).isSome = true ∧
        ((turn.adopt [first]).2.world.database.queues.offset? key).isSome = false) ↔
      first = key ∧ turn.world.registry.contains key.peer = false ∧
        turn.world.database.reachable = true ∧
        (turn.world.database.queues.offset? key).isSome = true := by
  rcases adopt_singleton_cases turn first with ⟨hholds, hadopt⟩ | ⟨hlacks, hadopt⟩
  · have hsame : (turn.spawn first).world.database.queues = turn.world.database.queues :=
      congrArg Ground.queues (turn.ground_spawn first)
    rw [hadopt]
    show _ ∧ ((turn.spawn first).world.database.queues.offset? key).isSome = false ↔ _
    rw [hsame]
    constructor
    · rintro ⟨hthere, hgone⟩
      rw [hthere] at hgone
      cases hgone
    · rintro ⟨rfl, hlacks, -⟩
      rw [hholds] at hlacks
      cases hlacks
  · rw [hadopt]
    show _ ∧ ((QueueStore.serve turn.world.database (.drop first)).database.queues.offset? key).isSome = false ↔ _
    rw [QueueStore.serve_drop]
    cases hup : turn.world.database.reachable with
    | false =>
      show _ ∧ (turn.world.database.queues.offset? key).isSome = false ↔ _
      cases turn.world.database.queues.offset? key <;> simp
    | true =>
      show _ ∧ ((turn.world.database.queues.remove first).offset? key).isSome = false ↔ _
      rw [QueueTables.offset?_remove]
      by_cases hkey : key = first
      · subst hkey
        simp [hlacks]
      · cases turn.world.database.queues.offset? key <;> simp [hkey, Ne.symm hkey]

theorem turn_next_adoption (turn : Turn) (first : QueueKey) (keys : List QueueKey) (news : List PeerEvent) :
    (next ⟨turn, .adoption (first :: keys), news⟩).turn = (turn.adopt [first]).2 := by
  unfold next
  dsimp only
  split
  case h_1 answer after hadopt => rw [hadopt]
  case h_2 error after hadopt => rw [hadopt]

/-- The next step drops a queue if it looks for its peer in vain, and no other. -/
theorem drops_iff : watch.Drops key ↔ watch.Misses key := by
  obtain ⟨turn, task, news⟩ := watch
  have hmisses : Misses ⟨turn, task, news⟩ key ↔
      task.key? = some key ∧ turn.world.registry.contains key.peer = false ∧
        turn.world.database.reachable = true ∧
        (turn.world.database.queues.offset? key).isSome = true :=
    ⟨fun h ↦ ⟨h.turned, h.lacks, h.up, h.there⟩, fun ⟨hturned, hlacks, hup, hthere⟩ ↦
      ⟨hturned, hup, hthere, hlacks⟩⟩
  rw [hmisses]
  cases task with
  | pass pass => exact dropped_mem_passStep_iff
  | adoption keys =>
    cases keys with
    | nil =>
      simp only [Drops, next, Task.key?]
      simp
    | cons first keys =>
      show _ ∧ ((next _).turn.world.database.queues.offset? key).isSome = false ↔ _
      rw [turn_next_adoption]
      refine hasQueue_adopt_iff.trans (and_congr_left' ?_)
      simp [Task.key?]

end Steps

/-! ## What the news tell -/

theorem news_next (watch : Watch) : watch.next.news = watch.news := by
  unfold next
  split
  case h_1 => rfl
  case h_2 => rfl
  case h_3 => split <;> rfl

/-- No step of a task touches the peer table or the cache. -/
theorem next_peers (watch : Watch) :
    watch.next.turn.world.database.peers = watch.turn.world.database.peers ∧
      watch.next.turn.world.registry = watch.turn.world.registry := by
  obtain ⟨turn, task, news⟩ := watch
  cases task with
  | pass pass => exact ⟨pass.peers_step turn.world.registry turn.world.database turn.world.membership, rfl⟩
  | adoption keys =>
    cases keys with
    | nil => exact ⟨rfl, rfl⟩
    | cons first keys =>
      rw [turn_next_adoption]
      rcases adopt_singleton_cases turn first with ⟨-, hadopt⟩ | ⟨-, hadopt⟩
      · obtain ⟨measures, hworld⟩ := turn.world_spawn first
        rw [hadopt]
        exact ⟨congrArg (·.database.peers) hworld, congrArg (·.registry) hworld⟩
      · rw [hadopt]
        exact ⟨QueueStore.peers_serve turn.world.database (.drop first), rfl⟩

/-- Whoever makes the next step, the table is still told by the cache and the news. -/
theorem informed_of_moves {watch after : Watch}
    (h : watch.turn.world.registry.Informed watch.turn.world.database watch.news)
    (hmove : Moves watch after) :
    after.turn.world.registry.Informed after.turn.world.database after.news := by
  cases hmove with
  | next =>
    obtain ⟨hpeers, hregistry⟩ := next_peers watch
    intro id
    rw [hregistry, news_next, Database.peer?, hpeers]
    exact h id
  | begin task => exact h
  | refresh =>
    show (watch.turn.world.registry.refresh watch.turn.world.database).registry.Informed
      (watch.turn.world.registry.refresh watch.turn.world.database).database _
    cases hup : watch.turn.world.database.reachable with
    | true =>
      rw [Registry.database_refresh]
      exact .refresh watch.turn.world.registry hup
    | false =>
      rw [Registry.refresh, hup]
      exact h
  | own change =>
    obtain ⟨hregistry, hdatabase⟩ := watch.turn.world.changePeers_eq change
    show (watch.turn.world.changePeers change).registry.Informed (watch.turn.world.changePeers change).database _
    rw [hregistry, hdatabase]
    exact h.own (.make _ _ change)
  | elsewhere other change => exact h.elsewhere (.make other _ change)
  | otherwise htable hcache =>
    intro id
    rw [htable, hcache]
    exact h id

/-- A watch that begins when the registry's cache holds the names of the table. -/
def opening (turn : Turn) (task : Task) : Watch := ⟨turn, task, []⟩

theorem informed_of_leads {turn : Turn} {task : Task} {watch : Watch}
    (hcurrent : ∀ id, turn.world.registry.contains id = (turn.world.database.peer? id).isSome)
    (hleads : Leads (opening turn task) watch) :
    watch.turn.world.registry.Informed watch.turn.world.database watch.news := by
  induction hleads with
  | refl => exact fun id ↦ (hcurrent id).symm
  | tail _ hmove ih => exact informed_of_moves ih hmove

/-- A queue whose peer is registered is dropped if and only if a step looks for the peer in vain and the
last news of it is its addition. -/
theorem drops_registered_iff {turn : Turn} {task : Task} {watch : Watch}
    (hcurrent : ∀ id, turn.world.registry.contains id = (turn.world.database.peer? id).isSome)
    (hleads : Leads (opening turn task) watch) (key : QueueKey) :
    watch.Drops key ∧ watch.isRegistered key.peer = true ↔
      watch.Misses key ∧ Registry.lastTold? watch.news key.peer = some true := by
  rw [drops_iff]
  apply and_congr_right
  intro hmisses
  exact (informed_of_leads hcurrent hleads).registered_iff hmisses.lacks

namespace Sample

/-- A queue is left for a peer that was removed. Node n is alive. -/
def world (key : QueueKey) : World :=
  { World.create (.ofNames ["f"]) with
    database := { Database.empty with queues := .run .empty [.create key none] }
    membership := ⟨["n"], []⟩ }

def engine : Engine := { (Engine.create? (.brisk "n")).get rfl with state := .running }

def idle (key : QueueKey) : Watch := opening ⟨world key, engine⟩ (.adoption [])

/-- Another node registers the peer anew, before node n begins a task. -/
def registered (key : QueueKey) (task : Task) : Watch where
  turn := { (idle key).turn with
    world := (world key).changeElsewhere ⟨[], true, 0⟩ (.add "p" "mem://p") }
  task := task
  news := [.added ⟨"p", "mem://p", true⟩]

theorem leads_registered (key : QueueKey) (task : Task) : Leads (idle key) (registered key task) :=
  (Leads.single (.elsewhere _ ⟨[], true, 0⟩ (.add "p" "mem://p"))).tail (.begin _ task)

/-- Node n takes up its queue. -/
def adopting : Watch := registered (.own "n" "p") (.adoption [.own "n" "p"])

/-- The coordinator of node n has come to the queue of node m, which is dead. -/
def claiming : Watch := (registered (.own "m" "p") (.pass (.asking "m"))).next.next.next.next

end Sample

/-- An engine drops its queue for a peer that another node has registered. -/
theorem drops_registered_elsewhere :
    Leads (Sample.idle (.own "n" "p")) Sample.adopting ∧ Sample.adopting.Drops (.own "n" "p") ∧
      Sample.adopting.isRegistered "p" = true := by
  have hleads := Sample.leads_registered (.own "n" "p") (.adoption [.own "n" "p"])
  have hmisses : Sample.adopting.Misses (.own "n" "p") := ⟨rfl, rfl, by decide +kernel, by decide +kernel⟩
  exact ⟨hleads, (drops_registered_iff (fun _ ↦ rfl) hleads _).mpr ⟨hmisses, by decide +kernel⟩⟩

/-- A failover pass drops a queue whose peer is registered. -/
theorem drops_registered_while_claiming :
    Leads (Sample.idle (.own "m" "p")) Sample.claiming ∧ Sample.claiming.Drops (.own "m" "p") ∧
      Sample.claiming.isRegistered "p" = true := by
  refine ⟨?_, ?_, by decide +kernel⟩
  · exact ((((Sample.leads_registered (.own "m" "p") (.pass (.asking "m"))).tail (.next _)).tail
      (.next _)).tail (.next _)).tail (.next _)
  · exact drops_iff.mpr ⟨by decide +kernel, by decide +kernel, by decide +kernel, by decide +kernel⟩

end Watch

end Engine

end LogShipping
