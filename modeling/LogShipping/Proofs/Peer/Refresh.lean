import LogShipping.Proofs.Peer.News

/-!
# What a refresh brings about

A refresh brings a cache up to the table as far as the names, the flags and the switch go, and tells of
every change of these. It does not look at connections. A peer that was removed and added again under its
name keeps the old connection in the cache if its flag is what it was. If its flag is another, the cache
takes the new connection, but the announcement tells of the flag alone.
-/

namespace LogShipping

/-- What is known of the peers and of the switch. -/
@[ext] structure PeerView where
  peer? : String → Option Peer
  replicating : Bool

namespace PeerView

def put (view : PeerView) (peer : Peer) : PeerView :=
  { view with peer? := fun id ↦ if id = peer.id then some peer else view.peer? id }

def putAll (view : PeerView) (peers : List Peer) : PeerView := peers.foldl put view

/-- What is known after an announcement. -/
def learn (view : PeerView) : PeerEvent → PeerView
  | .added peer => view.put peer
  | .removed gone => { view with peer? := fun id ↦ if id = gone then none else view.peer? id }
  | .stateChanged changed enabled =>
    { view with peer? := fun id ↦
        if id = changed then (view.peer? id).map ({ · with enabled }) else view.peer? id }
  | .replicating on => { view with replicating := on }

def replay (view : PeerView) (events : List PeerEvent) : PeerView := events.foldl learn view

variable {view : PeerView}

theorem replay_append (events more : List PeerEvent) :
    view.replay (events ++ more) = (view.replay events).replay more := List.foldl_append

/-- What is known already is no news. -/
theorem put_eq_self {peer : Peer} (h : view.peer? peer.id = some peer) : view.put peer = view := by
  ext id : 2
  · show (if id = peer.id then some peer else view.peer? id) = view.peer? id
    split
    case isTrue hid => rw [hid, h]
    case isFalse => rfl
  · rfl

theorem replicating_putAll (view : PeerView) (peers : List Peer) :
    (view.putAll peers).replicating = view.replicating := by
  induction peers generalizing view with
  | nil => rfl
  | cons peer rest ih => exact ih (view.put peer)

theorem peer?_putAll (view : PeerView) {peers : List Peer} (hnames : (peers.map (·.id)).Nodup)
    (id : String) :
    (view.putAll peers).peer? id = (peers.find? (·.id == id)).or (view.peer? id) := by
  induction peers generalizing view with
  | nil => rfl
  | cons peer rest ih =>
    obtain ⟨hnew, hrest⟩ := List.nodup_cons.mp hnames
    show ((view.put peer).putAll rest).peer? id = _
    rw [ih _ hrest, List.find?_cons]
    by_cases hid : id = peer.id
    · have hnone : rest.find? (·.id == id) = none := by
        rw [List.find?_eq_none]
        intro other hother hsame
        exact hnew (List.mem_map.mpr ⟨other, hother, (beq_iff_eq.mp hsame).trans hid⟩)
      rw [hnone, beq_iff_eq.mpr hid.symm, Option.none_or]
      exact if_pos hid
    · rw [beq_eq_false_iff_ne.mpr (Ne.symm hid)]
      congr 1
      exact if_neg hid

theorem replay_removed (gone : List String) :
    view.replay (gone.map .removed) =
      { view with peer? := fun id ↦ if id ∈ gone then none else view.peer? id } := by
  induction gone generalizing view with
  | nil => simp [replay]
  | cons first rest ih =>
    show (view.learn (.removed first)).replay (rest.map .removed) = _
    rw [ih]
    congr 1
    funext id
    by_cases hfirst : id = first <;> simp [learn, hfirst]

end PeerView

namespace Database

def view (database : Database) : PeerView := ⟨database.peer?, database.replicating⟩

/-- No two rows of the peer table have the same name. -/
def KeyedPeers (database : Database) : Prop := (database.peers.map (·.id)).Nodup

/-- The database after changes through some registries. -/
def changedBy (database : Database) (changes : List (Registry × Registry.Change)) : Database :=
  changes.foldl (fun database change ↦ (change.1.make database change.2).database) database

end Database

namespace Registry

def view (registry : Registry) : PeerView := ⟨registry.peer?, registry.replicating⟩

/-! ## Changes of the table -/

section Changes

variable {registry : Registry} {database : Database}

/-- A change leaves the database as it is, or changes the peer table or the switch. -/
theorem database_make_cases (registry : Registry) (database : Database) (change : Change) :
    (registry.make database change).database = database ∨
      match change with
      | .add id connection => (database.peer? id).isSome = false ∧
        (registry.make database change).database =
          { database with peers := database.peers ++ [⟨id, connection, true⟩] }
      | .remove id => (registry.make database change).database =
          { database with peers := database.peers.filter (·.id != id) }
      | .setEnabled id enabled => (registry.make database change).database =
          { database with
            peers := database.peers.map fun peer ↦ if peer.id = id then { peer with enabled } else peer }
      | .setReplicating on => (registry.make database change).database =
          { database with replicating := on } := by
  cases change with
  | add id connection =>
    simp only [make, addPeer, refuse, Reply.effect]
    split
    case isTrue => exact .inl rfl
    case isFalse =>
      split
      case isTrue => exact .inl rfl
      case isFalse hnew => exact .inr ⟨Bool.eq_false_iff.mpr hnew, rfl⟩
  | remove id =>
    simp only [make, removePeer, refuse, Reply.effect]
    split
    case isTrue => exact .inl rfl
    case isFalse =>
      split
      case isTrue => exact .inl rfl
      case isFalse => exact .inr rfl
  | setEnabled id enabled =>
    simp only [make, setPeerEnabled, refuse, Reply.effect]
    split
    case isTrue => exact .inl rfl
    case isFalse =>
      split
      case isTrue => exact .inl rfl
      case isFalse => exact .inr rfl
  | setReplicating on =>
    simp only [make, setReplicating, refuse, Reply.effect]
    split
    case isTrue => exact .inl rfl
    case isFalse => exact .inr rfl

theorem reachable_make (change : Change) :
    (registry.make database change).database.reachable = database.reachable := by
  rcases database_make_cases registry database change with hsame | hmade
  · rw [hsame]
  · cases change with
    | add id connection => rw [hmade.2]
    | remove id => rw [hmade]
    | setEnabled id enabled => rw [hmade]
    | setReplicating on => rw [hmade]

theorem keyedPeers_make (h : database.KeyedPeers) (change : Change) :
    (registry.make database change).database.KeyedPeers := by
  rcases database_make_cases registry database change with hsame | hmade
  · rwa [hsame]
  unfold Database.KeyedPeers at h ⊢
  cases change with
  | add id connection =>
    obtain ⟨hnew, hmade⟩ := hmade
    rw [hmade, List.map_append, List.nodup_append]
    refine ⟨h, List.pairwise_singleton _ _, fun other hother _ hid hsame ↦ ?_⟩
    obtain ⟨peer, hpeer, rfl⟩ := List.mem_map.mp hother
    rw [Database.isSome_peer?, List.any_eq_false] at hnew
    exact hnew peer hpeer (beq_iff_eq.mpr (hsame.trans (List.mem_singleton.mp hid)))
  | remove id =>
    rw [hmade]
    exact h.sublist (List.filter_sublist.map _)
  | setEnabled id enabled =>
    have hname (peer : Peer) :
        (if peer.id = id then { peer with enabled } else peer).id = peer.id := by
      split <;> rfl
    rw [hmade, List.map_map]
    simpa only [Function.comp_def, hname] using h
  | setReplicating on => rwa [hmade]

theorem keyedPeers_changedBy (changes : List (Registry × Change)) (h : database.KeyedPeers) :
    (database.changedBy changes).KeyedPeers := by
  induction changes generalizing database with
  | nil => exact h
  | cons change rest ih => exact ih (keyedPeers_make h change.2)

theorem reachable_changedBy (changes : List (Registry × Change)) :
    (database.changedBy changes).reachable = database.reachable := by
  induction changes generalizing database with
  | nil => rfl
  | cons change rest ih => exact ih.trans (reachable_make change.2)

end Changes

/-! ## Rows -/

/-- What a refreshed cache holds for a row, having held something of its name before, or nothing. -/
def held (old : Option Peer) (row : Peer) : Peer :=
  match old with
  | none => row
  | some peer => if peer.enabled = row.enabled then peer else row

/-- What is told of a row. -/
def told (old : Option Peer) (row : Peer) : Peer :=
  match old with
  | none => row
  | some peer => { peer with enabled := row.enabled }

section Rows

variable {registry : Registry} {view : PeerView} {row : Peer} {rows : List Peer}

theorem peer?_insert (registry : Registry) (peer : Peer) (id : String) :
    (registry.insert peer).peer? id = if id = peer.id then some peer else registry.peer? id := by
  rw [Registry.peer?, cached?_insert]
  split <;> rfl

theorem replicating_insert (registry : Registry) (peer : Peer) :
    (registry.insert peer).replicating = registry.replicating := by
  unfold insert
  split <;> rfl

/-- A peer stands under its own name. -/
theorem id_of_peer? {peer : Peer} {id : String} (h : registry.peer? id = some peer) : peer.id = id := by
  obtain ⟨entry, hentry, rfl⟩ := Option.map_eq_some_iff.mp h
  exact id_of_cached? hentry

/-- What is held and told of a row has its name. -/
theorem id_held (registry : Registry) (row : Peer) : (held (registry.peer? row.id) row).id = row.id := by
  unfold held
  split
  case h_1 => rfl
  case h_2 peer hpeer =>
    split
    case isTrue => exact id_of_peer? hpeer
    case isFalse => rfl

theorem id_told (registry : Registry) (row : Peer) : (told (registry.peer? row.id) row).id = row.id := by
  unfold told
  split
  case h_1 => rfl
  case h_2 peer hpeer =>
    show peer.id = row.id
    exact id_of_peer? hpeer

theorem view_insert (registry : Registry) (peer : Peer) :
    (registry.insert peer).view = registry.view.put peer := by
  ext id : 2
  · exact peer?_insert registry peer id
  · exact replicating_insert registry peer

theorem view_takeIn (registry : Registry) (row : Peer) :
    (registry.takeIn row).1.view = registry.view.put (held (registry.peer? row.id) row) := by
  unfold takeIn
  split
  case h_1 hnone => rw [hnone, held, view_insert]
  case h_2 peer hpeer =>
    rw [hpeer]
    show _ = registry.view.put (if peer.enabled = row.enabled then peer else row)
    split
    case isTrue =>
      refine (PeerView.put_eq_self ?_).symm
      rw [id_of_peer? hpeer]
      exact hpeer
    case isFalse => exact view_insert registry row

theorem replay_takeIn (hview : view.peer? row.id = registry.peer? row.id) :
    view.replay (registry.takeIn row).2 = view.put (told (registry.peer? row.id) row) := by
  unfold takeIn
  split
  case h_1 hnone => rw [hnone]; rfl
  case h_2 peer hpeer =>
    have hname := id_of_peer? hpeer
    rw [hpeer] at hview ⊢
    split
    case isTrue hsame =>
      rw [told, ← hsame]
      refine (PeerView.put_eq_self ?_).symm
      show view.peer? peer.id = some peer
      rw [hname, hview]
    case isFalse =>
      ext id : 2
      · show (if id = row.id then (view.peer? id).map ({ · with enabled := row.enabled })
          else view.peer? id) =
            if id = peer.id then some { peer with enabled := row.enabled } else view.peer? id
        by_cases hid : id = row.id
        · rw [if_pos hid, if_pos (hid.trans hname.symm), hid, hview]
          rfl
        · rw [if_neg hid, if_neg (by rw [hname]; exact hid)]
      · rfl

/-- A row leaves what is known under other names as it is. -/
theorem peer?_takeIn_of_ne {id : String} (registry : Registry) (row : Peer) (hid : id ≠ row.id) :
    (registry.takeIn row).1.peer? id = registry.peer? id := by
  have hview := congrArg (PeerView.peer? · id) (view_takeIn registry row)
  refine hview.trans (if_neg ?_)
  rw [id_held]
  exact hid

/-- The rows to come are not touched by the first one. -/
theorem map_takeIn {take : Option Peer → Peer → Peer} (registry : Registry)
    (hnew : row.id ∉ rows.map (·.id)) :
    rows.map (fun other ↦ take ((registry.takeIn row).1.peer? other.id) other) =
      rows.map fun other ↦ take (registry.peer? other.id) other := by
  refine List.map_congr_left fun other hother ↦ ?_
  rw [peer?_takeIn_of_ne registry row]
  exact fun hid ↦ hnew (hid ▸ List.mem_map_of_mem hother)

theorem view_takeInAll (registry : Registry) (hrows : (rows.map (·.id)).Nodup) :
    (registry.takeInAll rows).1.view =
      registry.view.putAll (rows.map fun row ↦ held (registry.peer? row.id) row) := by
  induction rows generalizing registry with
  | nil => rfl
  | cons row rest ih =>
    obtain ⟨hnew, hrest⟩ := List.nodup_cons.mp hrows
    show ((registry.takeIn row).1.takeInAll rest).1.view = _
    rw [ih _ hrest, map_takeIn registry hnew, view_takeIn]
    rfl

theorem replay_takeInAll (hrows : (rows.map (·.id)).Nodup)
    (hview : ∀ row ∈ rows, view.peer? row.id = registry.peer? row.id) :
    view.replay (registry.takeInAll rows).2 =
      view.putAll (rows.map fun row ↦ told (registry.peer? row.id) row) := by
  induction rows generalizing registry view with
  | nil => rfl
  | cons row rest ih =>
    obtain ⟨hnew, hrest⟩ := List.nodup_cons.mp hrows
    show view.replay ((registry.takeIn row).2 ++ ((registry.takeIn row).1.takeInAll rest).2) = _
    rw [PeerView.replay_append, replay_takeIn (hview row List.mem_cons_self), ih hrest,
      map_takeIn registry hnew]
    · rfl
    · intro other hother
      have hid : other.id ≠ row.id := fun hsame ↦ hnew (List.mem_map.mpr ⟨other, hother, hsame⟩)
      rw [peer?_takeIn_of_ne registry row hid, ← hview other (List.mem_cons_of_mem _ hother)]
      refine if_neg ?_
      rw [id_told]
      exact hid

end Rows

/-! ## The whole of a refresh -/

section Refresh

variable {registry : Registry} {database : Database}

theorem replicating_takeInAll (registry : Registry) (rows : List Peer) :
    (registry.takeInAll rows).1.replicating = registry.replicating := by
  induction rows generalizing registry with
  | nil => rfl
  | cons row rest ih =>
    show ((registry.takeIn row).1.takeInAll rest).1.replicating = _
    rw [ih]
    exact congrArg PeerView.replicating (view_takeIn registry row)

theorem replicating_foldl_erase (registry : Registry) (gone : List String) :
    (gone.foldl erase registry).replicating = registry.replicating := by
  induction gone generalizing registry with
  | nil => rfl
  | cons first rest ih => exact ih (registry.erase first)

theorem view_foldl_erase (registry : Registry) (gone : List String) :
    (gone.foldl erase registry).view =
      { registry.view with peer? := fun id ↦ if id ∈ gone then none else registry.peer? id } := by
  ext id : 2
  · show (gone.foldl erase registry).peer? id = if id ∈ gone then none else registry.peer? id
    rw [Registry.peer?, cached?_foldl_erase]
    split <;> rfl
  · exact replicating_foldl_erase registry gone

/-- What is forgotten is told. -/
theorem replay_forgetMissing (registry : Registry) (rows : List Peer) :
    registry.view.replay (registry.forgetMissing rows).2 = (registry.forgetMissing rows).1.view :=
  (PeerView.replay_removed _).trans (view_foldl_erase registry _).symm

theorem peer?_forgetMissing (registry : Registry) (rows : List Peer) (id : String) :
    (registry.forgetMissing rows).1.peer? id =
      if rows.any (·.id == id) then registry.peer? id else none := by
  rw [Registry.peer?, cached?_forgetMissing]
  split <;> rfl

/-- Whatever a refresh makes of the rows, it makes of each row and what the cache had under its name. -/
theorem peer?_putAll_forgetMissing {take : Option Peer → Peer → Peer}
    (hnames : ∀ registry : Registry, ∀ row, (take (registry.peer? row.id) row).id = row.id)
    (hkeyed : database.KeyedPeers) (id : String) :
    ((registry.forgetMissing database.peers).1.view.putAll (database.peers.map fun row ↦
        take ((registry.forgetMissing database.peers).1.peer? row.id) row)).peer? id =
      (database.peer? id).map (take (registry.peer? id)) := by
  have hmapped : ((database.peers.map fun row ↦
      take ((registry.forgetMissing database.peers).1.peer? row.id) row).map (·.id)).Nodup := by
    rw [List.map_map]
    simp only [Function.comp_def, hnames]
    exact hkeyed
  rw [PeerView.peer?_putAll _ hmapped, find?_map_of_name fun row ↦ hnames _ row]
  show ((database.peer? id).map _).or ((registry.forgetMissing database.peers).1.peer? id) = _
  have hthere := Database.isSome_peer? database id
  cases hrow : database.peer? id with
  | none =>
    rw [hrow] at hthere
    rw [peer?_forgetMissing, ← hthere]
    rfl
  | some row =>
    have hid : row.id = id := by
      have hfound := List.find?_some hrow
      exact beq_iff_eq.mp hfound
    rw [hrow] at hthere
    rw [Option.map_some, Option.map_some, Option.some_or, hid, peer?_forgetMissing, ← hthere]
    rfl

/-- What the cache holds after a refresh. -/
theorem view_refresh (registry : Registry) (hup : database.reachable = true)
    (hkeyed : database.KeyedPeers) :
    (registry.refresh database).registry.view =
      ⟨fun id ↦ (database.peer? id).map (held (registry.peer? id)), database.replicating⟩ := by
  unfold refresh
  rw [hup]
  ext id : 2
  · show ((registry.forgetMissing database.peers).1.takeInAll database.peers).1.peer? id =
      (database.peer? id).map (held (registry.peer? id))
    rw [← peer?_putAll_forgetMissing id_held hkeyed]
    exact congrArg (PeerView.peer? · id) (view_takeInAll _ hkeyed)
  · rfl

/-- What the announcements of a refresh tell. -/
theorem replay_refresh (registry : Registry) (hup : database.reachable = true)
    (hkeyed : database.KeyedPeers) :
    registry.view.replay (registry.refresh database).events =
      ⟨fun id ↦ (database.peer? id).map (told (registry.peer? id)), database.replicating⟩ := by
  have hswitch (view : PeerView) (switch : Bool) (hview : view.replicating = switch) :
      view.replay (if switch = database.replicating then [] else [.replicating database.replicating]) =
        ⟨view.peer?, database.replicating⟩ := by
    split
    case isTrue hsame => rw [← hsame, ← hview]; rfl
    case isFalse => rfl
  unfold refresh
  rw [hup]
  show registry.view.replay ((registry.forgetMissing database.peers).2 ++
    ((registry.forgetMissing database.peers).1.takeInAll database.peers).2 ++ _) = _
  rw [PeerView.replay_append, PeerView.replay_append, replay_forgetMissing,
    replay_takeInAll hkeyed fun _ _ ↦ rfl, hswitch]
  · ext id : 2
    · exact peer?_putAll_forgetMissing id_told hkeyed id
    · rfl
  · rw [PeerView.replicating_putAll, replicating_takeInAll]
    rfl

/-- Cache and row agree if the row was taken in, or had the connection already. -/
theorem held_eq_iff {old : Option Peer} {row : Peer}
    (hname : ∀ peer, old = some peer → peer.id = row.id) :
    held old row = row ↔
      ∀ peer, old = some peer → peer.enabled = row.enabled → peer.connection = row.connection := by
  cases old with
  | none => simp [held]
  | some peer =>
    have hid := hname peer rfl
    obtain ⟨id, connection, enabled⟩ := peer
    obtain ⟨name, target, flag⟩ := row
    cases hid
    by_cases hflag : enabled = flag <;> simp [held, hflag]

/-- The announcements tell what the cache holds if the row was not taken in, or had the connection
already. -/
theorem told_eq_held_iff {old : Option Peer} {row : Peer}
    (hname : ∀ peer, old = some peer → peer.id = row.id) :
    told old row = held old row ↔
      ∀ peer, old = some peer → peer.enabled ≠ row.enabled → peer.connection = row.connection := by
  cases old with
  | none => simp [held, told]
  | some peer =>
    have hid := hname peer rfl
    obtain ⟨id, connection, enabled⟩ := peer
    obtain ⟨name, target, flag⟩ := row
    cases hid
    by_cases hflag : enabled = flag <;> simp [held, told, hflag]

/-- How far a refresh brings a cache, and whoever follows its announcements, up to the table. -/
structure Refreshed (registry : Registry) (database : Database) (reply : Reply Nat) : Prop where
  answer : reply.answer = .ok reply.events.length
  switch : reply.registry.replicating = database.replicating
  switchTold : (registry.view.replay reply.events).replicating = reply.registry.replicating
  flags : ∀ id, (reply.registry.peer? id).map (·.enabled) = (database.peer? id).map (·.enabled)
  /-- A row is in the cache as it stands, unless the flag is what it was and the connection is not. -/
  cache : ∀ id, reply.registry.peer? id = database.peer? id ↔
    ∀ old row, registry.peer? id = some old → database.peer? id = some row →
      old.enabled = row.enabled → old.connection = row.connection
  /-- What the cache holds was told, unless neither the flag nor the connection is what it was. -/
  news : ∀ id, (registry.view.replay reply.events).peer? id = reply.registry.peer? id ↔
    ∀ old row, registry.peer? id = some old → database.peer? id = some row →
      old.enabled ≠ row.enabled → old.connection = row.connection

theorem refreshed (registry : Registry) (hup : database.reachable = true) (hkeyed : database.KeyedPeers) :
    Refreshed registry database (registry.refresh database) := by
  have hcache (id : String) : (registry.refresh database).registry.peer? id =
      (database.peer? id).map (held (registry.peer? id)) :=
    congrArg (PeerView.peer? · id) (view_refresh registry hup hkeyed)
  have hnews (id : String) : (registry.view.replay (registry.refresh database).events).peer? id =
      (database.peer? id).map (told (registry.peer? id)) :=
    congrArg (PeerView.peer? · id) (replay_refresh registry hup hkeyed)
  have hname {id : String} {row : Peer} (hrow : database.peer? id = some row) (peer : Peer)
      (hpeer : registry.peer? id = some peer) : peer.id = row.id := by
    have hfound := List.find?_some hrow
    exact (id_of_peer? hpeer).trans (beq_iff_eq.mp hfound).symm
  constructor
  case answer =>
    unfold refresh
    rw [hup]
    rfl
  case switch => exact congrArg PeerView.replicating (view_refresh registry hup hkeyed)
  case switchTold =>
    rw [replay_refresh registry hup hkeyed]
    exact (congrArg PeerView.replicating (view_refresh registry hup hkeyed)).symm
  case flags =>
    intro id
    rw [hcache, Option.map_map]
    congr 1
    funext row
    show (held (registry.peer? id) row).enabled = row.enabled
    unfold held
    split
    case h_1 => rfl
    case h_2 => split <;> first | assumption | rfl
  case cache =>
    intro id
    rw [hcache]
    cases hrow : database.peer? id with
    | none => simp
    | some row =>
      rw [Option.map_some, Option.some_inj, held_eq_iff (hname hrow)]
      simp only [Option.some_inj]
      exact ⟨fun h old _ hold hsame ↦ hsame ▸ h old hold, fun h peer hpeer ↦ h peer row hpeer rfl⟩
  case news =>
    intro id
    rw [hcache, hnews]
    cases hrow : database.peer? id with
    | none => simp
    | some row =>
      rw [Option.map_some, Option.map_some, Option.some_inj, told_eq_held_iff (hname hrow)]
      simp only [Option.some_inj]
      exact ⟨fun h old _ hold hsame ↦ hsame ▸ h old hold, fun h peer hpeer ↦ h peer row hpeer rfl⟩

/-- A refresh after any changes of the table through other registries. -/
theorem refreshed_after_changes (registry : Registry) (changes : List (Registry × Change))
    (hup : database.reachable = true) (hkeyed : database.KeyedPeers) :
    Refreshed registry (database.changedBy changes) (registry.refresh (database.changedBy changes)) :=
  refreshed registry ((reachable_changedBy changes).trans hup) (keyedPeers_changedBy changes hkeyed)

end Refresh

namespace Sample

/-- One peer is registered. -/
def stocked : Database := { Database.empty with peers := [⟨"2", "c", true⟩] }

/-- A registry that has it in its cache. -/
def registry : Registry := ⟨[⟨⟨"2", "c", true⟩, 0⟩], true, 1⟩

/-- Another registry disables the peer, adds one and switches replication off. -/
def changes : List (Registry × Change) :=
  [(registry, .setEnabled "2" false), (registry, .add "3" "d"), (registry, .setReplicating false)]

/-- Another registry removes the peer and adds it with another connection. -/
def replacement : List (Registry × Change) := [(registry, .remove "2"), (registry, .add "2" "d")]

/-- It disables the new one as well. -/
def disabled : List (Registry × Change) := replacement ++ [(registry, .setEnabled "2" false)]

end Sample

/-- Where no connection has changed, the cache is what the table is, and so are the announcements. -/
theorem refreshed_after_disabling :
    Refreshed Sample.registry (Sample.stocked.changedBy Sample.changes)
        (Sample.registry.refresh (Sample.stocked.changedBy Sample.changes)) ∧
      (Sample.registry.refresh (Sample.stocked.changedBy Sample.changes)).events =
        [.stateChanged "2" false, .added ⟨"3", "d", true⟩, .replicating false] := by
  refine ⟨refreshed_after_changes Sample.registry Sample.changes rfl ?_, by decide +kernel⟩
  show ["2"].Nodup
  exact List.pairwise_singleton _ _

/-- A peer that was replaced by one with another connection is held with the old one, and no one is told. If
the new one is disabled besides, it is held with its connection, but only the flag is told. -/
theorem refresh_misses_connection :
    (Sample.stocked.changedBy Sample.replacement).peer? "2" = some ⟨"2", "d", true⟩ ∧
      Sample.registry.refresh (Sample.stocked.changedBy Sample.replacement) =
        ⟨.ok 0, Sample.registry, Sample.stocked.changedBy Sample.replacement, []⟩ ∧
      Sample.registry.peer? "2" = some ⟨"2", "c", true⟩ ∧
      (Sample.registry.refresh (Sample.stocked.changedBy Sample.disabled)).registry.peer? "2" =
        some ⟨"2", "d", false⟩ ∧
      (Sample.registry.view.replay
          (Sample.registry.refresh (Sample.stocked.changedBy Sample.disabled)).events).peer? "2" =
        some ⟨"2", "c", false⟩ := by
  exact ⟨by decide +kernel, rfl, by decide +kernel, by decide +kernel, by decide +kernel⟩

end Registry

end LogShipping
