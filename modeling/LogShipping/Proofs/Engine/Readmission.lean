import LogShipping.Proofs.Engine.Upkeep
import LogShipping.Proofs.Worker.Relay

/-!
# Peers that are added again

A peer is removed and then added again, while an engine goes through its notices at its own pace. If the
engine comes to the notice of the removal while its cache lacks the peer, it ends all work for the peer and
drops its queues. The peer then starts afresh, whether it is in the table again by then or is added later: the
queue that is created for it begins where the node's log ended when it was added, or behind, and nothing that
the node ships to it was in front of that. If the cache holds the peer again by then, the engine keeps the
queues it has, with all that they still hold.
-/

namespace LogShipping

open QueueTables

/-- The peer is added to the table, through the node's own registry or through another one. -/
inductive World.Adds (peer : String) (world : World) : World → Prop
  | own (connection : String) (hup : world.database.reachable = true) :
      Adds peer world (world.changePeers (.add peer connection))
  | elsewhere (registry : Registry) (connection : String) (hup : world.database.reachable = true) :
      Adds peer world (world.changeElsewhere registry (.add peer connection))

/-- The peer is in the table then, and nothing else has changed but the registry. -/
theorem World.Adds.added {peer : String} {world after : World} (h : world.Adds peer after)
    (hnew : (world.database.peer? peer).isSome = false) :
    (after.database.peer? peer).isSome = true ∧ after.database.queues = world.database.queues ∧
      after.storages = world.storages := by
  have hmade (registry : Registry) (connection : String) (hup : world.database.reachable = true) :
      ((registry.make world.database (.add peer connection)).database.peer? peer).isSome = true := by
    rw [(Registry.Effect.Honest.make registry world.database _).table]
    simp [Registry.make, Registry.addPeer, Registry.Reply.effect, hup, hnew, Registry.lastTold?,
      PeerEvent.tells?]
  cases h with
  | own connection hup =>
    have hdatabase := (world.changePeers_eq (.add peer connection)).2
    refine ⟨?_, ?_, world.storages_changePeers _⟩
    · rw [hdatabase]
      exact hmade world.registry connection hup
    · rw [hdatabase, Registry.queues_make]
  | elsewhere registry connection hup =>
    exact ⟨hmade registry connection hup, Registry.queues_make registry world.database _, rfl⟩

namespace Engine.Readmission

open Turn hiding noticed

variable {turn after : Turn} {peer : String} {mark : LogPosition} {seen : World → Prop}

/-! ## Runs -/

/-- A step of the engine, of a new engine of the node, or of anyone else. The peer stays in the table or
out of it, and the worker of the node's own queue does not find the last of the listed files missing. -/
inductive Moves (peer : String) : Turn → Turn → Prop
  | notice {turn after : Turn} (h : turn.nextEvent? = some after) : Moves peer turn after
  | lookAfter (turn : Turn) (anyway : Bool) : Moves peer turn (turn.lookAfter anyway)
  | start (turn : Turn) : Moves peer turn turn.start.2
  | shutdown (turn : Turn) : Moves peer turn turn.shutdown
  | halt (turn : Turn) : Moves peer turn turn.halt
  /-- Another peer is added through the engine. -/
  | addPeer (turn : Turn) {id : String} (connection : String) (hother : id ≠ peer) :
      Moves peer turn (turn.addPeer id connection).2
  | removePeer (turn : Turn) {id : String} (hother : id ≠ peer) : Moves peer turn (turn.removePeer id).2
  | work (turn : Turn) {key : QueueKey} {worker : Worker} (hworker : turn.engine.worker? key = some worker)
      (hfinds : worker.key = turn.own peer →
        Worker.Turn.Finds ⟨turn.world, turn.engine.facilities, worker⟩) :
      Moves peer turn (turn.worked worker)
  | coordinate {turn after : Turn} (h : turn.coordinate? = some after)
      (hapart : turn.Apart peer after.world) : Moves peer turn after
  | restart (turn : Turn) {settings : NodeSettings} {engine : Engine}
      (hcreate : Engine.create? settings = some engine) (hnode : settings.node = turn.engine.node) :
      Moves peer turn { turn with engine }
  | elsewhere (turn : Turn) {world : World} (hapart : turn.Apart peer world) :
      Moves peer turn { turn with world }

def Leads (peer : String) : Turn → Turn → Prop := Relation.ReflTransGen (Moves peer)

/-- The engine takes this notice off the feed of peers. -/
def Notices (turn : Turn) (event : PeerEvent) (after : Turn) : Prop :=
  ∃ places place, turn.engine.places = some places ∧
    turn.world.peerFeed.next places.peers = .notice event place ∧
    after = (turn.setPlaces { places with peers := place }).onPeerEvent event

theorem Notices.nextEvent? {event : PeerEvent} (h : Notices turn event after) :
    turn.nextEvent? = some after := by
  obtain ⟨places, place, hplaces, hnext, rfl⟩ := h
  unfold Turn.nextEvent? nextPeerEvent?
  rw [hplaces]
  dsimp only
  rw [hnext]
  rfl

/-- What deeds keep, the engine keeps. -/
theorem keeps_deeds (condition : Turn → Prop)
    (hdeed : ∀ turn after, condition turn → Deed turn after → condition after) (h : condition turn)
    (hdeeds : Deeds turn after) : condition after := by
  induction hdeeds with
  | refl => exact h
  | tail _ hdeed' ih => exact hdeed _ _ ih hdeed'

/-- What deeds keep, and worker steps, new engines and what happens elsewhere, is kept. -/
theorem Moves.keeps (hmove : Moves peer turn after) {condition : Turn → Prop} (h : condition turn)
    (hdeed : ∀ turn after, condition turn → Deed turn after → condition after)
    (hapart : ∀ world, turn.Apart peer world → condition { turn with world })
    (hwork : ∀ worker ∈ turn.engine.workers, (worker.key = turn.own peer →
      Worker.Turn.Finds ⟨turn.world, turn.engine.facilities, worker⟩) → condition (turn.worked worker))
    (hrestart : ∀ engine : Engine, engine.node = turn.engine.node → engine.workers = [] →
      condition { turn with engine }) : condition after := by
  have hdeeds {turn after : Turn} (h : condition turn) (hdeeds : Deeds turn after) : condition after :=
    keeps_deeds condition hdeed h hdeeds
  cases hmove with
  | notice hnext => exact hdeeds h (deeds_nextEvent? turn hnext)
  | lookAfter anyway => exact hdeeds h (deeds_lookAfter turn anyway)
  | start => exact hdeeds h (deeds_start turn)
  | shutdown => exact hdeeds h (deeds_shutdown turn)
  | halt => exact hdeeds h (deeds_halt turn)
  | addPeer connection hother =>
    rename_i id
    have hadded := hapart _ (apart_changePeers turn (.add id connection)
      fun hsame ↦ hother (Option.some.inj hsame))
    exact hdeeds hadded (deeds_addPeer turn id connection)
  | removePeer hother =>
    rename_i id
    have hremoved := hapart _ (apart_changePeers turn (.remove id)
      fun hsame ↦ hother (Option.some.inj hsame))
    exact hdeeds hremoved (deeds_removePeer turn id)
  | work hworker hfinds => exact hwork _ (List.mem_of_find?_eq_some hworker) hfinds
  | coordinate hnext hworld =>
    obtain ⟨coordinator, hengine⟩ := engine_coordinate? turn hnext
    have hset := hdeed _ _ (hapart after.world hworld)
      (deed_setCoordinator { turn with world := after.world } coordinator)
    have hafter : after = setCoordinator { turn with world := after.world } coordinator := by
      unfold setCoordinator
      rw [← hengine]
    exact hafter ▸ hset
  | restart hcreate hnode =>
    obtain ⟨facilities, -, rfl⟩ := Option.map_eq_some_iff.mp hcreate
    exact hrestart _ hnode rfl
  | elsewhere hworld => exact hapart _ hworld

/-! ## The peer is gone -/

/-- The peer is neither in the table nor in the cache, and the node has nothing left for it. -/
structure Forgets (peer : String) (turn : Turn) : Prop where
  sound : turn.Sound
  bare : turn.Bare peer
  table : ¬turn.Lists peer
  cache : ¬turn.Knows peer

theorem Forgets.moves (h : Forgets peer turn) (hmove : Moves peer turn after) : Forgets peer after := by
  refine hmove.keeps h (fun turn after h hdeed ↦ ?_) (fun world hapart ↦ ?_) (fun worker hworker _ ↦ ?_)
    fun engine hnode hnone ↦ ?_
  · have hgoes := hdeed.goes peer
    exact ⟨h.sound.deed hdeed, h.bare.deed h.cache hdeed, fun hlists ↦ h.table (hgoes.table.mp hlists),
      hgoes.unknown h.table h.cache⟩
  · exact ⟨h.sound.apart hapart, h.bare.apart hapart, fun hlists ↦ h.table (hapart.goes.table.mp hlists),
      hapart.goes.unknown h.table h.cache⟩
  · have hgoes := goes_worked turn worker peer
    exact ⟨h.sound.worked worker, h.bare.worked hworker, fun hlists ↦ h.table (hgoes.table.mp hlists),
      hgoes.unknown h.table h.cache⟩
  · have hgoes : Goes peer turn { turn with engine } := goes_restart turn hnode
    refine ⟨h.sound.goes hgoes h.sound.wellFormed, ⟨fun key hlocal ↦ ?_, ?_⟩, h.table, h.cache⟩
    · exact h.bare.queues key (hgoes.local_iff.mp hlocal)
    · rw [hnone]
      exact List.forall_mem_nil _

theorem Forgets.leads (h : Forgets peer turn) (hleads : Leads peer turn after) : Forgets peer after := by
  induction hleads with
  | refl => exact h
  | tail _ hmove ih => exact ih.moves hmove

/-- The peer is in the table, and the log has gone on from the mark. -/
structure Back (peer : String) (mark : LogPosition) (turn : Turn) : Prop where
  sound : turn.Sound
  table : turn.Lists peer
  log : turn.log.EndsBehind mark

theorem Back.goes (h : Back peer mark turn) (hgoes : Goes peer turn after) (hsound : after.Sound) :
    Back peer mark after :=
  ⟨hsound, hgoes.table.mpr h.table, hgoes.endsBehind h.sound.ordered h.log⟩

theorem Back.moves (h : Back peer mark turn) (hmove : Moves peer turn after) : Back peer mark after :=
  hmove.keeps h (fun _ _ h hdeed ↦ h.goes (hdeed.goes peer) (h.sound.deed hdeed))
    (fun _ hapart ↦ h.goes hapart.goes (h.sound.apart hapart))
    (fun worker _ _ ↦ h.goes (goes_worked turn worker peer) (h.sound.worked worker))
    fun _ hnode _ ↦
      have hgoes := goes_restart turn hnode
      h.goes hgoes (h.sound.goes hgoes h.sound.wellFormed)

theorem Back.leads (h : Back peer mark turn) (hleads : Leads peer turn after) : Back peer mark after := by
  induction hleads with
  | refl => exact h
  | tail _ hmove ih => exact ih.moves hmove

/-- The peer is in the table, the log has gone on from the mark, and so does all that the node has for the
peer. As long as the cache lacks the peer this is nothing. -/
structure Since (peer : String) (mark : LogPosition) (seen : World → Prop) (turn : Turn) : Prop where
  sound : turn.Sound
  table : turn.Lists peer
  log : turn.log.EndsBehind mark
  bare : ¬turn.Knows peer → turn.Bare peer
  stands : Stands mark (turn.own peer) turn.tables
  others : ∀ key, turn.Local peer key → key ≠ turn.own peer → turn.tables.offset? key = none
  mine : ∀ worker ∈ turn.engine.workers, worker.key = turn.own peer →
    Worker.Tracks mark seen turn.tables (turn.own peer) worker.phase
  idle : ∀ worker ∈ turn.engine.workers, turn.Local peer worker.key → worker.key ≠ turn.own peer →
    worker.phase.Free

theorem since_of_bare (hsound : turn.Sound) (htable : turn.Lists peer) (hlog : turn.log.EndsBehind mark)
    (hbare : turn.Bare peer) : Since peer mark seen turn where
  sound := hsound
  table := htable
  log := hlog
  bare _ := hbare
  stands := stands_of_absent hsound.wellFormed (hbare.queues _ (local_own turn peer))
  others key hlocal _ := hbare.queues key hlocal
  mine worker hworker hkey := (hbare.workers worker hworker (hkey ▸ local_own turn peer)).elim
  idle worker hworker hlocal _ := (hbare.workers worker hworker hlocal).elim

/-- The node's own queue is still behind the mark, and there is no other for the peer. -/
structure Onward (peer : String) (mark : LogPosition) (turn : Turn) (tables : QueueTables) : Prop where
  stands : Stands mark (turn.own peer) tables
  backed : ∀ first, turn.tables.Backed (turn.own peer) first → tables.Backed (turn.own peer) first
  others : ∀ key, turn.Local peer key → key ≠ turn.own peer → tables.offset? key = none

theorem Since.onward_of_same (h : Since peer mark seen turn) {tables : QueueTables}
    (hsame : ∀ key, turn.Local peer key → Same key turn.tables tables) : Onward peer mark turn tables where
  stands := h.stands.of_same (hsame _ (local_own turn peer))
  backed _ hbacked := hbacked.of_same (hsame _ (local_own turn peer))
  others key hlocal hne := (hsame key hlocal).offset.trans (h.others key hlocal hne)

/-- A file of the node's log has a number that the tables put in order. -/
theorem Since.small (h : Since peer mark seen turn) {file : FileRef} (hfile : turn.Told file) :
    file.seq.toNat < 1 <<< 63 := by
  have hlt : file.seq < turn.log.next := by
    rcases hfile with ⟨committed, hactive⟩ | hkept
    · exact h.sound.ordered.active file committed hactive
    · exact h.sound.ordered.told file hkept
  exact Nat.lt_of_lt_of_le (UInt64.lt_iff_toNat_lt.mp hlt) h.sound.ordered.bound

theorem Since.treats (h : Since peer mark seen turn) (hknows : turn.Knows peer) {operation : Operation}
    (htreats : turn.Treats operation) {tables : QueueTables}
    (hok : turn.tables.perform operation = .ok tables) : Onward peer mark turn tables := by
  -- An operation on a queue that is not for the peer, or not of the node, leaves all of these as they are.
  have hapart {other : QueueKey} (hsubject : operation.subject? = some other)
      (hother : ¬turn.Local peer other) : Onward peer mark turn tables :=
    h.onward_of_same fun key hlocal ↦ same_of_ne hok hsubject fun hkey ↦ hother (hkey ▸ hlocal)
  cases htreats with
  | create other hknown =>
    by_cases hother : other = peer
    · subst hother
      obtain ⟨file, committed, hactive, hbehind⟩ := h.log
      have hsmall : file.seq.toNat < 1 <<< 63 := h.small (.inl ⟨committed, hactive⟩)
      rw [hactive] at hok
      cases hok
      refine ⟨h.stands.create h.sound.wellFormed hsmall hbehind,
        fun first hbacked ↦ hbacked.create h.sound.wellFormed _, fun key hlocal hne ↦ ?_⟩
      rw [offset?_create_of_ne hne]
      exact h.others key hlocal hne
    · exact hapart rfl fun hlocal ↦ hother hlocal.2
  | enqueue key hfile =>
    rename_i file
    have hsmall := h.small hfile
    by_cases hkey : key = turn.own peer
    · subst hkey
      refine ⟨h.stands.enqueue hsmall hok, fun first hbacked ↦ hbacked.enqueue h.stands.small hsmall hok,
        fun other hlocal hne ↦ ?_⟩
      exact (same_of_ne hok rfl hne).offset.trans (h.others other hlocal hne)
    · by_cases hlocal : turn.Local peer key
      · have hthere := (enqueue_eq_ok_iff.mp hok).1
        rw [h.others key hlocal hkey] at hthere
        cases hthere
      · exact hapart rfl hlocal
  | drop key hgone => exact hapart rfl fun hlocal ↦ hgone (hlocal.2 ▸ hknows)

theorem Since.deed (h : Since peer mark seen turn) (hdeed : Deed turn after) : Since peer mark seen after := by
  have hgoes := hdeed.goes peer
  have hown : after.own peer = turn.own peer := hgoes.own peer
  have htable : after.Lists peer := hgoes.table.mpr h.table
  have hlog := hgoes.endsBehind h.sound.ordered h.log
  by_cases hknows : turn.Knows peer
  case neg => exact since_of_bare (h.sound.deed hdeed) htable hlog ((h.bare hknows).deed hknows hdeed)
  case pos =>
    have honward : Onward peer mark turn after.tables := by
      rcases hdeed.tables with hsame | ⟨operation, htreats, hok⟩
      · exact h.onward_of_same fun key _ ↦ hsame ▸ .refl key turn.tables
      · exact h.treats hknows htreats hok
    refine ⟨h.sound.deed hdeed, htable, hlog, fun hgone ↦ (hgone (hgoes.knows h.table hknows)).elim,
      hown ▸ honward.stands, fun key hlocal hne ↦ ?_, fun worker hworker hkey ↦ ?_,
      fun worker hworker hlocal hne ↦ ?_⟩
    · exact honward.others key (hgoes.local_iff.mp hlocal) (hown ▸ hne)
    · rw [hown] at hkey ⊢
      have htracks {old : Worker} (hold : old ∈ turn.engine.workers) (holdkey : old.key = turn.own peer) :
          Worker.Tracks mark seen after.tables (turn.own peer) old.phase :=
        (h.mine old hold holdkey).mono (fun _ hseen ↦ hseen) honward.backed
      rcases hdeed.workers hworker with ⟨old, hold, rfl | rfl⟩ | ⟨hready, -⟩
      · exact htracks hold hkey
      · obtain ⟨hsame, hphase | hready⟩ := phase_wake old
        · exact hphase ▸ htracks hold (hsame ▸ hkey)
        · exact hready ▸ Worker.tracks_of_free trivial
      · exact hready ▸ Worker.tracks_of_free trivial
    · have hbefore := hgoes.local_iff.mp hlocal
      rw [hown] at hne
      rcases hdeed.workers hworker with ⟨old, hold, rfl | rfl⟩ | ⟨hready, -⟩
      · exact h.idle worker hold hbefore hne
      · obtain ⟨hsame, hphase | hready⟩ := phase_wake old
        · exact hphase ▸ h.idle old hold (hsame ▸ hbefore) (hsame ▸ hne)
        · exact hready ▸ trivial
      · exact hready ▸ trivial

theorem Since.apart (h : Since peer mark seen turn) {world : World} (hapart : turn.Apart peer world) :
    Since peer mark seen { turn with world } := by
  have hgoes := hapart.goes
  have honward := h.onward_of_same hapart.same
  refine ⟨h.sound.apart hapart, hgoes.table.mpr h.table, hgoes.endsBehind h.sound.ordered h.log,
    fun hgone ↦ ?_, honward.stands, honward.others, fun worker hworker hkey ↦ ?_, h.idle⟩
  · exact (h.bare fun hknows ↦ hgone (hgoes.knows h.table hknows)).apart hapart
  · exact (h.mine worker hworker hkey).mono (fun _ hseen ↦ hseen) honward.backed

theorem Since.worked (h : Since peer mark seen turn) (hseen : seen turn.world) {worker : Worker}
    (hworker : worker ∈ turn.engine.workers) (hfinds : worker.key = turn.own peer →
      Worker.Turn.Finds ⟨turn.world, turn.engine.facilities, worker⟩) :
    Since peer mark seen (turn.worked worker) := by
  have hgoes := goes_worked turn worker peer
  have hkey := key_worked turn worker
  have hlog := hgoes.endsBehind h.sound.ordered h.log
  have hbare (hgone : ¬(turn.worked worker).Knows peer) : (turn.worked worker).Bare peer :=
    (h.bare fun hknows ↦ hgone (hgoes.knows h.table hknows)).worked hworker
  by_cases hown : worker.key = turn.own peer
  case pos =>
    have hkeeps : Worker.Turn.Keeps mark seen ⟨turn.world, turn.engine.facilities, worker⟩ :=
      ⟨h.sound.wellFormed, hown ▸ h.stands, hown ▸ h.mine worker hworker hown⟩
    have hrecovered : worker.key.isRecovered = false := by
      rw [hown]
      simp [own, QueueKey.own, QueueKey.isRecovered]
    have hafter := hkeeps.step hrecovered hseen (hfinds hown)
    have hstands := hafter.stands
    have htracks := hafter.tracks
    rw [hkey, hown] at hstands htracks
    refine ⟨h.sound.worked worker, hgoes.table.mpr h.table, hlog, hbare, hstands,
      fun key hlocal hne ↦ ?_, fun other hother hsame ↦ ?_, fun other hother hlocal hne ↦ ?_⟩
    · exact (same_worked turn (hown ▸ hne)).offset.trans (h.others key hlocal hne)
    · rcases mem_worked hother with ⟨-, rfl⟩ | ⟨hne, -⟩
      · exact htracks
      · exact (hne (hsame.trans hown.symm)).elim
    · rcases mem_worked hother with ⟨hsame, -⟩ | ⟨-, hold⟩
      · exact (hne (hsame.trans hown)).elim
      · exact h.idle other hold hlocal hne
  case neg =>
    have hsame : Same (turn.own peer) turn.tables (turn.worked worker).tables :=
      same_worked turn (Ne.symm hown)
    -- Another worker for the peer has no queue to work on.
    have hidles (hlocal : turn.Local peer worker.key) :
        Worker.Turn.Idles ⟨turn.world, turn.engine.facilities, worker⟩
          (Worker.step ⟨turn.world, turn.engine.facilities, worker⟩) :=
      Worker.Turn.idles_of_absent (h.idle worker hworker hlocal hown) (h.others worker.key hlocal hown)
    refine ⟨h.sound.worked worker, hgoes.table.mpr h.table, hlog, hbare, h.stands.of_same hsame,
      fun key hlocal hne ↦ ?_, fun other hother hmine ↦ ?_, fun other hother hlocal hne ↦ ?_⟩
    · by_cases hworks : key = worker.key
      · have htables : (turn.worked worker).tables = turn.tables :=
          Worker.Turn.tables_of_scene_eq _ (hidles (hworks ▸ hlocal)).1
        rw [htables]
        exact h.others key hlocal hne
      · exact (same_worked turn hworks).offset.trans (h.others key hlocal hne)
    · rcases mem_worked hother with ⟨hworks, -⟩ | ⟨-, hold⟩
      · exact (hown (hworks.symm.trans hmine)).elim
      · exact (h.mine other hold hmine).mono (fun _ hseen ↦ hseen) fun _ hbacked ↦ hbacked.of_same hsame
    · rcases mem_worked hother with ⟨hworks, rfl⟩ | ⟨-, hold⟩
      · exact (hidles (hworks ▸ hlocal)).2
      · exact h.idle other hold hlocal hne

theorem Since.restart (h : Since peer mark seen turn) {engine : Engine}
    (hnode : engine.node = turn.engine.node) (hnone : engine.workers = []) :
    Since peer mark seen { turn with engine } := by
  have hgoes : Goes peer turn { turn with engine } := goes_restart turn hnode
  have hown : own { turn with engine } peer = turn.own peer := hgoes.own peer
  have hnobody (worker : Worker) (hworker : worker ∈ engine.workers) : False := by
    rw [hnone] at hworker
    cases hworker
  refine ⟨h.sound.goes hgoes h.sound.wellFormed, h.table, hgoes.endsBehind h.sound.ordered h.log,
    fun hgone ↦ ⟨fun key hlocal ↦ ?_, fun worker hworker ↦ (hnobody worker hworker).elim⟩,
    hown ▸ h.stands, fun key hlocal hne ↦ ?_, fun worker hworker ↦ (hnobody worker hworker).elim,
    fun worker hworker ↦ (hnobody worker hworker).elim⟩
  · exact (h.bare hgone).queues key (hgoes.local_iff.mp hlocal)
  · exact h.others key (hgoes.local_iff.mp hlocal) (hown ▸ hne)

theorem Since.moves (h : Since peer mark seen turn) (hseen : seen turn.world)
    (hmove : Moves peer turn after) : Since peer mark seen after :=
  hmove.keeps h (fun _ _ ↦ .deed) (fun _ ↦ h.apart) (fun _ ↦ h.worked hseen) fun _ ↦ h.restart

/-! ## Starting afresh -/

/-- The node has no queue for the peer but its own, this one stands at the mark or behind it, and what is
shipped to the peer is what the log of one of the worlds held there. -/
structure Fresh (peer : String) (mark : LogPosition) (seen : World → Prop) (turn : Turn) : Prop where
  queue : ∀ offset, turn.tables.offset? (turn.own peer) = some offset →
    ∃ first, turn.tables.headSeq? (turn.own peer) = some first ∧ LogPosition.Behind ⟨first, offset⟩ mark
  others : ∀ key, turn.Local peer key → key ≠ turn.own peer → turn.tables.offset? key = none
  ships : ∀ worker ∈ turn.engine.workers, turn.Local peer worker.key → ∀ shipment,
    Worker.Turn.sends? ⟨turn.world, turn.engine.facilities, worker⟩ = some shipment →
      ∃ passage, passage.shipment = shipment ∧ Worker.ReadBehind mark seen passage

theorem Since.fresh (h : Since peer mark seen turn) : Fresh peer mark seen turn where
  queue := h.stands.position
  others := h.others
  ships worker hworker hlocal shipment hsends := by
    obtain ⟨passage, hpassage, hshipment⟩ := Worker.Turn.passage?_of_sends? hsends
    change worker.phase.passage? = some passage at hpassage
    by_cases hown : worker.key = turn.own peer
    · exact ⟨passage, hshipment, ((h.mine worker hworker hown).carried hpassage).read⟩
    · have hfree := h.idle worker hworker hlocal hown
      cases hphase : worker.phase <;> rw [hphase] at hfree hpassage <;>
        first | exact hfree.elim | cases hpassage

/-- A world that there was since then. -/
def Seen (peer : String) (start : Turn) (world : World) : Prop :=
  ∃ turn, Leads peer start turn ∧ turn.world = world

theorem Since.leads {start : Turn} (hstart : Leads peer start turn)
    (h : Since peer mark (Seen peer start) turn) (hleads : Leads peer turn after) :
    Since peer mark (Seen peer start) after := by
  induction hleads with
  | refl => exact h
  | tail hbefore hmove ih => exact ih.moves ⟨_, hstart.trans hbefore, rfl⟩ hmove

/-- The cache holds the peer, and the node's own queue is there. -/
structure Served (peer : String) (mark : LogPosition) (seen : World → Prop) (turn : Turn) : Prop where
  since : Since peer mark seen turn
  knows : turn.Knows peer
  queue : turn.hasQueue peer = true

theorem hasQueue_of_treats (hknows : turn.Knows peer) {operation : Operation} (htreats : turn.Treats operation)
    {tables : QueueTables} (hok : turn.tables.perform operation = .ok tables)
    (hthere : turn.hasQueue peer = true) : (tables.offset? (turn.own peer)).isSome = true := by
  obtain ⟨key, hsubject, hkept⟩ :
      ∃ key, operation.subject? = some key ∧ operation ≠ .drop (turn.own peer) := by
    cases htreats with
    | create other => exact ⟨turn.own other, rfl, nofun⟩
    | enqueue key => exact ⟨key, rfl, nofun⟩
    | drop key hgone =>
      refine ⟨key, rfl, fun hdrop ↦ hgone ?_⟩
      rw [Operation.drop.inj hdrop]
      exact hknows
  by_cases hkey : turn.own peer = key
  · exact isSome_offset?_of_perform hok (hkey ▸ hsubject) hkept hthere
  · rw [(same_of_ne hok hsubject hkey).offset]
    exact hthere

theorem Served.deed (h : Served peer mark seen turn) (hdeed : Deed turn after) : Served peer mark seen after := by
  have hgoes := hdeed.goes peer
  refine ⟨h.since.deed hdeed, hgoes.knows h.since.table h.knows, ?_⟩
  show (after.tables.offset? (after.own peer)).isSome = true
  rw [hgoes.own]
  rcases hdeed.tables with hsame | ⟨operation, htreats, hok⟩
  · exact hsame ▸ h.queue
  · exact hasQueue_of_treats h.knows htreats hok h.queue

theorem Served.worked (h : Served peer mark seen turn) (hseen : seen turn.world) {worker : Worker}
    (hworker : worker ∈ turn.engine.workers) (hfinds : worker.key = turn.own peer →
      Worker.Turn.Finds ⟨turn.world, turn.engine.facilities, worker⟩) :
    Served peer mark seen (turn.worked worker) := by
  have hgoes := goes_worked turn worker peer
  refine ⟨h.since.worked hseen hworker hfinds, hgoes.knows h.since.table h.knows, ?_⟩
  show ((turn.worked worker).tables.offset? (turn.own peer)).isSome = true
  rcases turn.tables_worked worker with hsame | ⟨operation, hsubject, hdropping, hok⟩
  · rw [hsame]
    exact h.queue
  · by_cases hown : worker.key = turn.own peer
    · refine isSome_offset?_of_perform hok (hown ▸ hsubject) (fun hdrop ↦ ?_) h.queue
      -- The worker of the node's own queue never comes to drop it.
      have htracks := h.since.mine worker hworker hown
      rw [hdropping (hown ▸ hdrop)] at htracks
      exact htracks
    · rw [(same_of_ne hok hsubject (Ne.symm hown)).offset]
      exact h.queue

theorem Served.moves (h : Served peer mark seen turn) (hseen : seen turn.world)
    (hmove : Moves peer turn after) : Served peer mark seen after := by
  refine hmove.keeps h (fun _ _ ↦ .deed) (fun world hapart ↦ ?_) (fun _ ↦ h.worked hseen)
    fun engine hnode hnone ↦ ?_
  · refine ⟨h.since.apart hapart, hapart.goes.knows h.since.table h.knows, ?_⟩
    exact (congrArg Option.isSome (hapart.same _ (local_own turn peer)).offset).trans h.queue
  · refine ⟨h.since.restart hnode hnone, h.knows, ?_⟩
    show (turn.tables.offset? (own { turn with engine } peer)).isSome = true
    have hgoes : Goes peer turn { turn with engine } := goes_restart turn hnode
    rw [hgoes.own]
    exact h.queue

theorem Served.leads {start : Turn} (hstart : Leads peer start turn)
    (h : Served peer mark (Seen peer start) turn) (hleads : Leads peer turn after) :
    Served peer mark (Seen peer start) after := by
  induction hleads with
  | refl => exact h
  | tail hbefore hmove ih => exact ih.moves ⟨_, hstart.trans hbefore, rfl⟩ hmove

namespace Sample

open Engine.Sample (engine changed noticed)

def key : QueueKey := .own "n" "p"

/-- Two entries are written to the first file of node n. -/
def blank : World :=
  { World.create (.ofNames ["f"]) with
    directory := ⟨[("w", Worker.Sample.record ++ Worker.Sample.record)]⟩
    storages := [("n", { Storage.create 2 with active := some (⟨1, "w"⟩, 0) })] }

def committed (turn : Turn) (length : Nat) : Turn :=
  { turn with world := turn.world.setStorage turn.engine.node (turn.log.commit length) }

/-- The first entry is committed, and then another node removes the peer. -/
def removed : Turn :=
  changed (committed (changed ⟨blank, engine⟩ (.add "p" "mem://p")).start.2 42) (.remove "p")

/-- The peer is added again after node n has come to the notice of its removal. -/
def readded : Turn := changed (noticed removed) (.add "p" "mem://p")

/-- The peer is added again before that. -/
def replaced : Turn := changed removed (.add "p" "mem://p")

/-- The peer is added again before that, but through another registry: the cache of node n still lacks it. -/
def unknown : Turn :=
  { removed with world := removed.world.changeElsewhere ⟨[], true, 0⟩ (.add "p" "mem://p") }

/-- The worker of the queue makes a step. -/
def step (key : QueueKey) (turn : Turn) : Turn :=
  match turn.engine.worker? key with
  | some worker => turn.worked worker
  | none => turn

/-- The second entry is committed, and the worker goes on until it ships. -/
def inTime : Turn := Nat.repeat (step key) 6 (committed (noticed readded) 84)

/-- Node n comes to the notice, brings its cache up to the table, and ships the second entry. -/
def caughtUp : Turn := Nat.repeat (step key) 6 (committed ((noticed unknown).lookAfter true) 84)

/-- The worker stops, since the registration that it worked for is gone. -/
def stopped : Turn := Nat.repeat (step key) 2 (noticed replaced)

/-- Another one is started, and goes on until it ships. -/
def late : Turn := Nat.repeat (step key) 6 (noticed stopped)

/-- Node d has died, and left its queue for the peer and a file with one entry. -/
def bereaved (turn : Turn) : Turn :=
  { turn with world :=
    { turn.world with
      directory := turn.world.directory.write "v" Worker.Sample.record
      membership := ⟨["n"], []⟩
      database := turn.world.database.withQueues (turn.tables.create (.own "d" "p") (some (⟨1, "v"⟩, 0))).2 } }

/-- The peer is removed before node n has come to the notice that it was added. -/
def forsaken : Turn :=
  noticed (changed (bereaved (changed (start ⟨blank, engine⟩).2 (.add "p" "mem://p"))) (.remove "p"))

end Sample

end Engine.Readmission

end LogShipping
