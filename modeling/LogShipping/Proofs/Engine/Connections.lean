import LogShipping.Proofs.Engine.Sinks
import LogShipping.Proofs.Peer.Registration

/-!
# Which registration a worker ships for

A worker is started for the registration that a peer has at that time, but it ships through the sink that
the engine holds, and that one was connected for the registration the peer had when the engine needed a
sink for it last. The two are the same if and only if the peer has been registered without interruption
ever since. They differ where the removal of a peer is noticed only once the peer is registered anew:
nothing is done about the removal then, and the sink stays.
-/

namespace LogShipping

namespace World

/-- Whether cache and table agree is nothing to the rest of the world. -/
theorem agrees_of_roster_eq {before after : World} (h : after.roster = before.roster)
    (hagrees : before.registry.Agrees before.database) : after.registry.Agrees after.database := by
  have hregistry : after.registry = before.registry := congrArg Roster.registry h
  have hpeers : after.database.peers = before.database.peers := congrArg Roster.peers h
  have hrow (id : String) : after.database.peer? id = before.database.peer? id := by
    rw [Database.peer?, hpeers]
    rfl
  rw [hregistry]
  constructor
  case table => exact fun id ↦ (hrow id).trans (hagrees.table id)
  case rows => exact fun row hmem ↦ (hrow row.id).trans (hagrees.rows row (hpeers ▸ hmem))
  case bound => exact hagrees.bound

/-- The registry goes on, and agrees with its table still. -/
structure Proceeds (before after : World) : Prop where
  agrees : after.registry.Agrees after.database
  succeeds : before.registry.Succeeds after.registry

theorem Proceeds.changePeers {world : World} (hagrees : world.registry.Agrees world.database)
    (change : Registry.Change) : world.Proceeds (world.changePeers change) := by
  obtain ⟨hregistry, hdatabase⟩ := world.changePeers_eq change
  have hfollows := hagrees.make change
  constructor
  case agrees =>
    rw [hregistry, hdatabase]
    exact hfollows.agrees
  case succeeds =>
    rw [hregistry]
    exact hfollows.succeeds

theorem Proceeds.refresh {world : World} (hagrees : world.registry.Agrees world.database) :
    world.Proceeds world.refresh.2 :=
  ⟨hagrees.refresh.agrees, hagrees.refresh.succeeds⟩

end World

/-- A sink is connected by name and connection alone. -/
theorem Sink.connect_congr (settings : Settings) {peer other : Peer} (hname : other.id = peer.id)
    (hconnection : other.connection = peer.connection) :
    Sink.connect settings other = Sink.connect settings peer := by
  unfold Sink.connect PeerStream.create
  rw [hname, hconnection]

namespace Engine

open Turn

/-! ## Runs -/

/-- One step of an engine, or of anyone else. All engines share the registry. -/
inductive Moves : Turn → Turn → Prop
  /-- The engine takes a notice off one of its feeds, or finds that it fell behind. -/
  | notice {turn after : Turn} (h : turn.nextEvent? = some after) : Moves turn after
  | lookAfter (turn : Turn) (anyway : Bool) : Moves turn (turn.lookAfter anyway)
  | work (turn : Turn) (steps : Nat) (key : QueueKey) : Moves turn (turn.runWorker steps key)
  | coordinate {turn after : Turn} (h : turn.coordinate? = some after) : Moves turn after
  | start (turn : Turn) : Moves turn turn.start.2
  | shutdown (turn : Turn) : Moves turn turn.shutdown
  | halt (turn : Turn) : Moves turn turn.halt
  | decommission (turn : Turn) : Moves turn turn.decommission.2
  /-- A peer is added through the engine. -/
  | addPeer (turn : Turn) (id connection : String) : Moves turn (turn.addPeer id connection).2
  | removePeer (turn : Turn) (id : String) : Moves turn (turn.removePeer id).2
  /-- The peer table is changed through any other engine. -/
  | change (turn : Turn) (change : Registry.Change) :
      Moves turn { turn with world := turn.world.changePeers change }
  | refresh (turn : Turn) : Moves turn { turn with world := turn.world.refresh.2 }
  /-- Anything that is nothing to the peers and to the engine. -/
  | otherwise (turn : Turn) {world : World} (h : world.roster = turn.world.roster) :
      Moves turn { turn with world }

/-- The turns of an engine, the latest first, from one on at which it held no sink for the peer. -/
inductive Run (peer : String) : List Turn → Prop
  | first {turn : Turn} (hsink : turn.sink? peer = none)
      (hagrees : turn.world.registry.Agrees turn.world.database) : Run peer [turn]
  | next {before after : Turn} {earlier : List Turn} (hrun : Run peer (before :: earlier))
      (hmove : Moves before after) : Run peer (after :: before :: earlier)

/-- The turns since the engine has held a sink for the peer. -/
def holding (peer : String) (turns : List Turn) : List Turn :=
  turns.takeWhile fun turn ↦ (turn.sink? peer).isSome

/-- The turn at which the engine came to hold the sink for the peer. -/
def since? (peer : String) (turns : List Turn) : Option Turn := (holding peer turns).getLast?

/-- A worker was started. -/
structure Spawns (before after : Turn) (assignment : Worker.Assignment) : Prop where
  employed : after.Employs assignment
  new : ¬before.Employs assignment

/-- The sink was connected for what the peer was registered as then. -/
def ConnectedAs (peer : String) (turns : List Turn) (sink : Sink) (founder : CachedPeer) : Prop :=
  ∃ origin, since? peer turns = some origin ∧ origin.entry? peer = some founder ∧
    origin.connect founder.peer = .ok sink

/-- The worker's sink was connected for the registration it works for, and leads where the peer is
registered. -/
structure Current (peer : String) (now : Turn) (past : List Turn) (assignment : Worker.Assignment) :
    Prop where
  registration : ∃ founder, ConnectedAs peer (now :: past) assignment.sink founder ∧
    assignment.gate = ⟨peer, founder.registration⟩
  connection : ∃ row, now.world.database.peer? peer = some row ∧ now.connect row = .ok assignment.sink

/-- The settings are the same, and the registry goes on. -/
structure Continues (earlier later : Turn) : Prop where
  settings : later.engine.settings = earlier.engine.settings
  registry : earlier.world.registry.Succeeds later.world.registry

theorem Continues.refl (turn : Turn) : Continues turn turn := ⟨rfl, .refl _⟩

theorem Continues.trans {first middle last : Turn} (h : Continues first middle)
    (hmore : Continues middle last) : Continues first last :=
  ⟨hmore.settings.trans h.settings, h.registry.trans hmore.registry⟩

/-! ## What one step does -/

section Steps

variable {before after : Turn}

/-- In every step the registry goes on first, and then the engine tends its sinks. -/
theorem Moves.tends (h : Moves before after)
    (hagrees : before.world.registry.Agrees before.world.database) :
    ∃ world : World, before.world.Proceeds world ∧ Tends ⟨world, before.engine⟩ after := by
  have hsame {after : Turn} (htends : Tends before after) :
      ∃ world : World, before.world.Proceeds world ∧ Tends ⟨world, before.engine⟩ after :=
    ⟨before.world, ⟨hagrees, .refl _⟩, htends⟩
  cases h with
  | notice h => exact hsame (tends_nextEvent? h)
  | lookAfter anyway =>
    unfold Turn.lookAfter
    split
    case isTrue =>
      split
      case isTrue =>
        exact ⟨_, .refresh hagrees, ((extends_poll before).trans (keeps_wakeWorkers _).extends).tends⟩
      case isFalse => exact hsame (keeps_wakeWorkers before).extends.tends
    case isFalse => exact hsame (Keeps.refl before).extends.tends
  | work steps key => exact hsame (keeps_runWorker before steps key).extends.tends
  | coordinate h => exact hsame (keeps_coordinate? before h).extends.tends
  | start => exact hsame (extends_start before).tends
  | shutdown => exact hsame (keeps_shutdown before).extends.tends
  | halt => exact hsame (keeps_halt before).extends.tends
  | decommission => exact hsame (keeps_decommission before).extends.tends
  | addPeer id connection =>
    exact ⟨_, .changePeers hagrees (.add id connection), (extends_addPeer before id connection).tends⟩
  | removePeer id => exact ⟨_, .changePeers hagrees (.remove id), tends_removePeer before id⟩
  | change change => exact ⟨_, .changePeers hagrees change, (Keeps.refl _).extends.tends⟩
  | refresh => exact ⟨_, .refresh hagrees, (Keeps.refl _).extends.tends⟩
  | otherwise hroster => exact hsame (keeps_of_world before hroster).extends.tends

theorem Moves.agrees (h : Moves before after)
    (hagrees : before.world.registry.Agrees before.world.database) :
    after.world.registry.Agrees after.world.database := by
  obtain ⟨world, hproceeds, htends⟩ := h.tends hagrees
  exact World.agrees_of_roster_eq htends.roster hproceeds.agrees

theorem Moves.continues (h : Moves before after)
    (hagrees : before.world.registry.Agrees before.world.database) : Continues before after := by
  obtain ⟨world, hproceeds, htends⟩ := h.tends hagrees
  have hregistry : after.world.registry = world.registry := congrArg Roster.registry htends.roster
  refine ⟨htends.settings, ?_⟩
  rw [hregistry]
  exact hproceeds.succeeds

/-- A started worker works for the registration that is there, through the sink that is held. -/
theorem Spawns.assigns {assignment : Worker.Assignment} (h : Spawns before after assignment)
    (hmove : Moves before after) (hagrees : before.world.registry.Agrees before.world.database) :
    after.Assigns assignment := by
  obtain ⟨world, -, htends⟩ := hmove.tends hagrees
  exact (htends.workers assignment h.employed).resolve_left h.new

end Steps

/-! ## Along a run -/

namespace Run

variable {peer : String} {turns earlier : List Turn} {now before after : Turn} {sink : Sink}

theorem agrees (h : Run peer turns) :
    ∀ turn ∈ turns, turn.world.registry.Agrees turn.world.database := by
  induction h with
  | first hsink hagrees =>
    rw [List.forall_mem_singleton]
    exact hagrees
  | next hrun hmove ih =>
    rw [List.forall_mem_cons]
    exact ⟨hmove.agrees (ih _ List.mem_cons_self), ih⟩

/-- Of any two turns the later continues the earlier. -/
theorem pairwise (h : Run peer turns) : turns.Pairwise fun later earlier ↦ Continues earlier later := by
  induction h with
  | first => exact List.pairwise_singleton _ _
  | @next before after earlier hrun hmove ih =>
    have hstep := hmove.continues (hrun.agrees before List.mem_cons_self)
    refine List.pairwise_cons.mpr ⟨fun turn hturn ↦ ?_, ih⟩
    rcases List.mem_cons.mp hturn with rfl | hearlier
    · exact hstep
    · exact ((List.pairwise_cons.mp ih).1 turn hearlier).trans hstep

theorem since?_kept (hafter : (after.sink? peer).isSome = true) (hbefore : (before.sink? peer).isSome = true) :
    since? peer (after :: before :: earlier) = since? peer (before :: earlier) := by
  have hrest : holding peer (before :: earlier) = before :: holding peer earlier :=
    List.takeWhile_cons_of_pos hbefore
  have hall : holding peer (after :: before :: earlier) = after :: holding peer (before :: earlier) :=
    List.takeWhile_cons_of_pos hafter
  rw [since?, since?, hall, hrest, List.getLast?_cons_cons]

theorem since?_taken (hafter : (after.sink? peer).isSome = true) (hbefore : before.sink? peer = none) :
    since? peer (after :: before :: earlier) = some after := by
  have hrest : holding peer (before :: earlier) = [] := by
    apply List.takeWhile_cons_of_neg
    rw [hbefore]
    exact Bool.false_ne_true
  have hall : holding peer (after :: before :: earlier) = after :: holding peer (before :: earlier) :=
    List.takeWhile_cons_of_pos hafter
  rw [since?, hall, hrest, List.getLast?_singleton]

/-- Every sink that is held was connected for what its peer was registered as then. -/
theorem connectedAs (h : Run peer (now :: earlier)) (hsink : now.sink? peer = some sink) :
    ∃ founder, ConnectedAs peer (now :: earlier) sink founder := by
  generalize hturns : now :: earlier = turns at h ⊢
  induction h generalizing now earlier with
  | first hnone =>
    cases hturns
    rw [hnone] at hsink
    cases hsink
  | @next before after earlier hrun hmove ih =>
    cases hturns
    have hafter : (after.sink? peer).isSome = true := Option.isSome_of_eq_some hsink
    obtain ⟨world, -, htends⟩ := hmove.tends (hrun.agrees before List.mem_cons_self)
    rcases htends.sinks peer sink hsink with hkept | ⟨hnone, hconnects⟩
    · change before.sink? peer = some sink at hkept
      obtain ⟨founder, origin, hsince, hfounder⟩ := ih hkept rfl
      exact ⟨founder, origin, (since?_kept hafter (Option.isSome_of_eq_some hkept)).trans hsince, hfounder⟩
    · obtain ⟨founder, hfounder, hconnect⟩ :=
        (connects_congr htends.roster htends.settings).mpr hconnects
      exact ⟨founder, after, since?_taken hafter hnone, hfounder, hconnect⟩

/-- The turn at which the sink came to be held is continued by every later one. -/
theorem continues_of_since? (h : Run peer turns) {origin : Turn} (hsince : since? peer turns = some origin) :
    ∀ turn ∈ holding peer turns, Continues origin turn := by
  obtain ⟨later, hlater⟩ := List.getLast?_eq_some_iff.mp hsince
  have hpairs := h.pairwise.sublist (List.takeWhile_sublist fun turn : Turn ↦ (turn.sink? peer).isSome)
  change (holding peer turns).Pairwise _ at hpairs
  rw [hlater] at hpairs ⊢
  intro turn hturn
  rcases List.mem_append.mp hturn with hbefore | hlast
  · exact (List.pairwise_append.mp hpairs).2.2 turn hbefore origin (List.mem_singleton_self origin)
  · rw [List.mem_singleton.mp hlast]
    exact .refl origin

/-- The present turn continues all. -/
theorem continues_now (h : Run peer (now :: earlier)) :
    ∀ turn ∈ holding peer (now :: earlier), Continues turn now := by
  intro turn hturn
  rcases List.mem_cons.mp ((List.takeWhile_sublist _).subset hturn) with rfl | hearlier
  · exact .refl turn
  · exact (List.pairwise_cons.mp h.pairwise).1 turn hearlier

/-- The registration for which the sink was connected was there all the time if it is there now. -/
theorem entry_of_since? (h : Run peer (now :: earlier)) {origin : Turn} {founder entry : CachedPeer}
    (hsince : since? peer (now :: earlier) = some origin) (hfounder : origin.entry? peer = some founder)
    (hentry : now.entry? peer = some entry) (hsame : founder.registration = entry.registration) :
    ∀ turn ∈ holding peer (now :: earlier), ∃ held, turn.entry? peer = some held ∧
      held.registration = entry.registration ∧ held.peer.connection = entry.peer.connection := by
  intro turn hturn
  have horigin := h.agrees origin ((List.takeWhile_sublist _).subset (List.mem_of_getLast? hsince))
  have hold : entry.registration < turn.world.registry.next :=
    calc entry.registration
        = founder.registration := hsame.symm
      _ < origin.world.registry.next := horigin.bound _ founder hfounder
      _ ≤ turn.world.registry.next := (h.continues_of_since? hsince turn hturn).registry.next
  exact (h.continues_now turn hturn).registry.entry_of_old hentry hold

theorem gate?_eq_iff {turn : Turn} {held entry : CachedPeer} (hheld : turn.entry? peer = some held)
    (hentry : now.entry? peer = some entry) :
    turn.world.registry.gate? peer = now.world.registry.gate? peer ↔
      held.registration = entry.registration := by
  change turn.world.registry.cached? peer = _ at hheld
  change now.world.registry.cached? peer = _ at hentry
  rw [Registry.gate?, Registry.gate?, hheld, hentry]
  simp

section Connected

variable {assignment : Worker.Assignment} {founder entry : CachedPeer}

/-- A sink leads where the peer is registered if it was connected for the same registration. -/
theorem current_iff_registration (h : Run peer (now :: earlier))
    (hconnected : ConnectedAs peer (now :: earlier) assignment.sink founder)
    (hentry : now.entry? peer = some entry) (hgate : assignment.gate = ⟨peer, entry.registration⟩) :
    Current peer now earlier assignment ↔ founder.registration = entry.registration := by
  obtain ⟨origin, hsince, hfounder, hconnect⟩ := id hconnected
  constructor
  · intro hcurrent
    obtain ⟨other, ⟨turn, hturn, hother, -⟩, hregistration⟩ := hcurrent.registration
    obtain rfl := Option.some.inj (hsince.symm.trans hturn)
    obtain rfl := Option.some.inj (hfounder.symm.trans hother)
    exact (Gate.mk.inj (hregistration.symm.trans hgate)).2
  · intro hsame
    have horigin := List.mem_of_getLast? hsince
    obtain ⟨held, hheld, -, hconnection⟩ := h.entry_of_since? hsince hfounder hentry hsame origin horigin
    obtain rfl := Option.some.inj (hheld.symm.trans hfounder)
    have hname : entry.peer.id = held.peer.id :=
      (Registry.id_of_cached? hentry).trans (Registry.id_of_cached? hheld).symm
    constructor
    case registration => exact ⟨held, hconnected, by rw [hgate, hsame]⟩
    case connection =>
      refine ⟨entry.peer, ?_, ?_⟩
      · rw [(h.agrees now List.mem_cons_self).table]
        exact congrArg (Option.map CachedPeer.peer) hentry
      · rw [Turn.connect, (h.continues_now origin horigin).settings,
          Sink.connect_congr _ hname hconnection.symm]
        exact hconnect

/-- A peer has been what it is now ever since its sink was connected if it was so then. -/
theorem uninterrupted_iff_registration {sink : Sink} (h : Run peer (now :: earlier))
    (hconnected : ConnectedAs peer (now :: earlier) sink founder) (hentry : now.entry? peer = some entry) :
    (∀ turn ∈ holding peer (now :: earlier),
        turn.world.registry.gate? peer = now.world.registry.gate? peer) ↔
      founder.registration = entry.registration := by
  obtain ⟨origin, hsince, hfounder, -⟩ := hconnected
  constructor
  · intro hever
    exact (gate?_eq_iff hfounder hentry).mp (hever origin (List.mem_of_getLast? hsince))
  · intro hsame turn hturn
    obtain ⟨held, hheld, hregistration, -⟩ := h.entry_of_since? hsince hfounder hentry hsame turn hturn
    exact (gate?_eq_iff hheld hentry).mpr hregistration

end Connected

end Run

/-- A started worker ships through the sink that the engine connected for what the peer was registered as
then. That is what it is registered as now if and only if it has been so ever since. -/
theorem spawned_current_iff {peer : String} {now before : Turn} {earlier : List Turn}
    {assignment : Worker.Assignment} (hrun : Run peer (now :: before :: earlier))
    (hspawned : Spawns before now assignment) (hpeer : assignment.key.peer = peer) :
    (∃ founder, ConnectedAs peer (now :: before :: earlier) assignment.sink founder) ∧
      (Current peer now (before :: earlier) assignment ↔
        ∀ turn ∈ holding peer (now :: before :: earlier),
          turn.world.registry.gate? peer = now.world.registry.gate? peer) := by
  have hassigns : now.Assigns assignment := by
    cases hrun with
    | next hearlier hmove => exact hspawned.assigns hmove (hearlier.agrees before List.mem_cons_self)
  subst hpeer
  obtain ⟨entry, hentry, hgate⟩ := hassigns.gate
  obtain ⟨founder, hconnected⟩ := hrun.connectedAs hassigns.sink
  refine ⟨⟨founder, hconnected⟩, ?_⟩
  rw [hrun.current_iff_registration hconnected hentry hgate,
    hrun.uninterrupted_iff_registration hconnected hentry]

/-- A connection to a remote cluster leads to it. -/
theorem connect_remote (turn : Turn) (id name : String) (enabled : Bool) :
    turn.connect ⟨id, "mem://" ++ name, enabled⟩ = .ok (.remote name) := by
  have hmarked : ("mem://" ++ name).toList = Sink.remoteMark ++ name.toList := String.toList_append
  have hmark : Sink.remoteMark.isPrefixOf (Sink.remoteMark ++ name.toList) = true :=
    List.isPrefixOf_iff_prefix.mpr (List.prefix_append _ _)
  unfold Turn.connect Sink.connect
  dsimp only
  rw [hmarked, hmark, if_pos rfl, List.drop_left, String.ofList_toList]

namespace Sample

theorem isSome_create?_brisk (node : String) : (Engine.create? (.brisk node)).isSome = true := rfl

/-- The engine of node n, not started yet. -/
def engine : Engine := (Engine.create? (.brisk "n")).get (isSome_create?_brisk "n")

def first : Turn := ⟨World.create (.ofNames ["f"]), engine⟩

def changed (turn : Turn) (change : Registry.Change) : Turn :=
  { turn with world := turn.world.changePeers change }

def noticed (turn : Turn) : Turn := turn.nextEvent?.getD turn

/-- Node n ships to the peer. -/
def started : Turn := (changed first (.add "p" "mem://p")).start.2

/-- Another node removes the peer. -/
def removed : Turn := changed started (.remove "p")

/-- Node n notices that, and then the peer is added with another connection. -/
def renewed : Turn := changed (noticed removed) (.add "p" "mem://q")

/-- The peer is added with another connection before node n notices that it was removed. -/
def replaced : Turn := changed removed (.add "p" "mem://q")

/-- The worker stops, since what it worked for is gone. -/
def stopped : Turn := (noticed replaced).runWorker 2 (.own "n" "p")

def past : List Turn := [removed, started, changed first (.add "p" "mem://p"), first]

def inTime : List Turn := renewed :: noticed removed :: past

def late : List Turn := stopped :: noticed replaced :: replaced :: past

theorem moves_noticed {turn : Turn} (h : turn.nextEvent?.isSome = true) : Moves turn (noticed turn) := by
  obtain ⟨after, hafter⟩ := Option.isSome_iff_exists.mp h
  rw [noticed, hafter]
  exact .notice hafter

theorem run_past : Run "p" past := by
  have hagrees : first.world.registry.Agrees first.world.database :=
    ⟨fun _ ↦ rfl, fun _ h ↦ (List.not_mem_nil h).elim, fun _ _ h ↦ (Option.some_ne_none _ h.symm).elim⟩
  exact .next (.next (.next (.first rfl hagrees) (.change first _)) (.start _)) (.change started _)

theorem run_inTime : Run "p" (noticed renewed :: inTime) :=
  ((run_past.next (moves_noticed (by decide +kernel))).next (.change _ _)).next
    (moves_noticed (by decide +kernel))

theorem run_late : Run "p" (noticed stopped :: late) :=
  (((run_past.next (.change _ _)).next (moves_noticed (by decide +kernel))).next (.work _ 2 _)).next
    (moves_noticed (by decide +kernel))

/-- The worker of the queue ships to the remote cluster. -/
def shipsTo (turn : Turn) (name : String) (gate : Gate) : Bool :=
  turn.engine.workers.any fun worker ↦ !worker.isFinished && worker.key == .own "n" "p" &&
    worker.gate == gate && match worker.sink with
      | .remote other => other == name
      | .stream _ => false

theorem employs_of_shipsTo {turn : Turn} {name : String} {gate : Gate} (h : shipsTo turn name gate = true) :
    turn.Employs ⟨.own "n" "p", .remote name, gate⟩ := by
  obtain ⟨worker, hworker, hall⟩ := List.any_eq_true.mp h
  simp only [Bool.and_eq_true, Bool.not_eq_true', beq_iff_eq] at hall
  obtain ⟨⟨⟨hlive, hkey⟩, hgate⟩, hsink⟩ := hall
  refine ⟨worker, hworker, hlive, ?_⟩
  rw [Worker.assignment, hkey, hgate]
  congr 1
  split at hsink
  case h_1 other hremote =>
    rw [hremote, beq_iff_eq.mp hsink]
  case h_2 => cases hsink

theorem not_employs {turn : Turn} (h : turn.engine.workers.all (·.isFinished) = true)
    (assignment : Worker.Assignment) : ¬turn.Employs assignment := by
  rintro ⟨worker, hworker, hlive, -⟩
  rw [List.all_eq_true.mp h worker hworker] at hlive
  cases hlive

end Sample

/-- A peer that is added with another connection once its removal has been noticed is shipped to there. -/
theorem current_added_after_notice :
    Spawns Sample.renewed (Sample.noticed Sample.renewed) ⟨.own "n" "p", .remote "q", ⟨"p", 1⟩⟩ ∧
      Current "p" (Sample.noticed Sample.renewed) Sample.inTime ⟨.own "n" "p", .remote "q", ⟨"p", 1⟩⟩ := by
  have hspawned : Spawns Sample.renewed (Sample.noticed Sample.renewed)
      ⟨.own "n" "p", .remote "q", ⟨"p", 1⟩⟩ :=
    ⟨Sample.employs_of_shipsTo (by decide +kernel), Sample.not_employs (by decide +kernel) _⟩
  exact ⟨hspawned, (spawned_current_iff Sample.run_inTime hspawned rfl).2.mpr (by decide +kernel)⟩

/-- A peer that is added with another connection before its removal is noticed is shipped to where it was
registered before. -/
theorem not_current_added_before_notice :
    Run "p" (Sample.noticed Sample.stopped :: Sample.late) ∧
      Spawns Sample.stopped (Sample.noticed Sample.stopped) ⟨.own "n" "p", .remote "p", ⟨"p", 1⟩⟩ ∧
      (Sample.noticed Sample.stopped).world.database.peer? "p" = some ⟨"p", "mem://q", true⟩ ∧
      ¬Current "p" (Sample.noticed Sample.stopped) Sample.late
        ⟨.own "n" "p", .remote "p", ⟨"p", 1⟩⟩ := by
  have hrow : (Sample.noticed Sample.stopped).world.database.peer? "p" = some ⟨"p", "mem://q", true⟩ := by
    decide +kernel
  refine ⟨Sample.run_late, ⟨Sample.employs_of_shipsTo (by decide +kernel),
    Sample.not_employs (by decide +kernel) _⟩, hrow, fun hcurrent ↦ ?_⟩
  obtain ⟨row, hregistered, hconnect⟩ := hcurrent.connection
  obtain rfl := Option.some.inj (hrow.symm.trans hregistered)
  have hleads : Sink.remote "q" = Sink.remote "p" :=
    Except.ok.inj ((connect_remote (Sample.noticed Sample.stopped) "p" "q" true).symm.trans hconnect)
  exact absurd (Sink.remote.inj hleads) (by decide)

end Engine

end LogShipping
