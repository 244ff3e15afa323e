import LogShipping.Proofs.Peer.News

/-!
# Registrations

A registration of a peer is told from every other one by its number, which the registry hands out in
ascending order and never twice. As long as no other registry writes to the table, cache and table agree,
and then a registration stands for one connection: whatever happens, a peer is still the one it was
before, with the connection it had, or it has a number that was not handed out then.
-/

namespace LogShipping

/-! ## The table by name -/

namespace Database

variable (database : Database)

theorem peer?_append (peer : Peer) (id : String) :
    peer? { database with peers := database.peers ++ [peer] } id =
      (database.peer? id).or (if peer.id = id then some peer else none) := by
  rw [peer?, List.find?_append, List.find?_singleton]
  simp only [beq_iff_eq]
  rfl

theorem peer?_filter (gone id : String) :
    peer? { database with peers := database.peers.filter (·.id != gone) } id =
      if id = gone then none else database.peer? id :=
  find?_filter_name_ne gone database.peers

theorem peer?_setEnabled (set id : String) (enabled : Bool) :
    peer? { database with
        peers := database.peers.map fun peer ↦ if peer.id = set then { peer with enabled } else peer } id =
      (database.peer? id).map fun peer ↦ if peer.id = set then { peer with enabled } else peer :=
  @find?_map_of_name _ Peer.id id _ (fun peer ↦ by split <;> rfl) database.peers

end Database

namespace Registry

variable {registry before middle after : Registry} {database : Database}

/-- The cache holds the table, a name has one row, and the numbers to come are new. -/
structure Agrees (registry : Registry) (database : Database) : Prop where
  table : ∀ id, database.peer? id = (registry.cached? id).map (·.peer)
  rows : ∀ row ∈ database.peers, database.peer? row.id = some row
  bound : ∀ id entry, registry.cached? id = some entry → entry.registration < registry.next

/-- Every peer of the later registry is one of the earlier, or registered anew. -/
structure Succeeds (before after : Registry) : Prop where
  next : before.next ≤ after.next
  entries : ∀ id later, after.cached? id = some later → before.next ≤ later.registration ∨
    ∃ entry, before.cached? id = some entry ∧ entry.registration = later.registration ∧
      entry.peer.connection = later.peer.connection

namespace Succeeds

theorem refl (registry : Registry) : registry.Succeeds registry where
  next := Nat.le_refl _
  entries := fun _ later hlater ↦ .inr ⟨later, hlater, rfl, rfl⟩

theorem trans (h : before.Succeeds middle) (hmore : middle.Succeeds after) : before.Succeeds after where
  next := Nat.le_trans h.next hmore.next
  entries := by
    intro id last hlast
    rcases hmore.entries id last hlast with hnew | ⟨later, hlater, hnumber, hconnection⟩
    · exact .inl (Nat.le_trans h.next hnew)
    · rcases h.entries id later hlater with hnew | ⟨entry, hentry, hold, hsame⟩
      · exact .inl (hnumber ▸ hnew)
      · exact .inr ⟨entry, hentry, hold.trans hnumber, hsame.trans hconnection⟩

/-- A peer whose registration had been made before was there then, with the same connection. -/
theorem entry_of_old (h : before.Succeeds after) {id : String} {later : CachedPeer}
    (hlater : after.cached? id = some later) (hold : later.registration < before.next) :
    ∃ entry, before.cached? id = some entry ∧ entry.registration = later.registration ∧
      entry.peer.connection = later.peer.connection := by
  rcases h.entries id later hlater with hnew | hentry
  · exact absurd hnew (Nat.not_le.mpr hold)
  · exact hentry

end Succeeds

/-- What the registry does keeps cache and table in agreement, and makes no registration twice. -/
structure Effect.Follows (registry : Registry) (effect : Effect) : Prop where
  agrees : effect.registry.Agrees effect.database
  succeeds : registry.Succeeds effect.registry

namespace Agrees

theorem cached?_eq_none_iff (h : registry.Agrees database) {id : String} :
    registry.cached? id = none ↔ database.peer? id = none := by
  rw [h.table, Option.map_eq_none_iff]

theorem refuse {α : Type} (h : registry.Agrees database) (error : Error) :
    (registry.refuse database error : Reply α).effect.Follows registry :=
  ⟨h, .refl registry⟩

theorem addPeer (h : registry.Agrees database) (id connection : String) :
    (registry.addPeer database id connection).effect.Follows registry := by
  unfold Registry.addPeer
  split
  case isTrue => exact h.refuse _
  case isFalse =>
    split
    case isTrue => exact h.refuse _
    case isFalse hnew =>
      have habsent : database.peer? id = none := Option.not_isSome_iff_eq_none.mp hnew
      have hcached (other : String) : (registry.insert ⟨id, connection, true⟩).cached? other =
          if other = id then some ⟨⟨id, connection, true⟩, registry.next⟩ else registry.cached? other := by
        rw [cached?_insert]
        by_cases hother : other = id
        · rw [if_pos hother, if_pos hother, hother, h.cached?_eq_none_iff.mpr habsent]
          rfl
        · rw [if_neg hother, if_neg hother]
      have hnext : (registry.insert ⟨id, connection, true⟩).next = registry.next + 1 := by
        rw [next_insert, contains, h.cached?_eq_none_iff.mpr habsent]
        rfl
      refine ⟨⟨fun other ↦ ?_, fun row hrow ↦ ?_, fun other entry hentry ↦ ?_⟩,
        ⟨?_, fun other later hlater ↦ ?_⟩⟩
      · show Database.peer? _ other = _
        simp only [Reply.effect]
        rw [Database.peer?_append, hcached]
        by_cases hother : other = id
        · rw [if_pos hother, if_pos hother.symm, hother, habsent]
          rfl
        · rw [if_neg hother, if_neg (Ne.symm hother), Option.or_none, h.table]
      · simp only [Reply.effect] at hrow ⊢
        rw [Database.peer?_append]
        rcases List.mem_append.mp hrow with hold | hnewRow
        · rw [h.rows row hold, Option.some_or]
        · obtain rfl := List.mem_singleton.mp hnewRow
          rw [habsent, if_pos rfl, Option.none_or]
      · simp only [Reply.effect] at hentry ⊢
        rw [hcached] at hentry
        rw [hnext]
        split at hentry
        case isTrue =>
          cases hentry
          exact Nat.lt_succ_self _
        case isFalse => exact Nat.lt_succ_of_lt (h.bound other entry hentry)
      · exact hnext ▸ Nat.le_succ _
      · simp only [Reply.effect] at hlater
        rw [hcached] at hlater
        split at hlater
        case isTrue =>
          cases hlater
          exact .inl (Nat.le_refl _)
        case isFalse => exact .inr ⟨later, hlater, rfl, rfl⟩

theorem removePeer (h : registry.Agrees database) (id : String) :
    (registry.removePeer database id).effect.Follows registry := by
  unfold Registry.removePeer
  split
  case isTrue => exact h.refuse _
  case isFalse =>
    split
    case isTrue => exact h.refuse _
    case isFalse =>
      refine ⟨⟨fun other ↦ ?_, fun row hrow ↦ ?_, fun other entry hentry ↦ ?_⟩,
        ⟨Nat.le_refl _, fun other later hlater ↦ ?_⟩⟩
      · simp only [Reply.effect]
        rw [Database.peer?_filter, cached?_erase]
        split
        case isTrue => rfl
        case isFalse => exact h.table other
      · simp only [Reply.effect] at hrow ⊢
        obtain ⟨hold, hkept⟩ := List.mem_filter.mp hrow
        rw [Database.peer?_filter, if_neg (bne_iff_ne.mp hkept), h.rows row hold]
      · simp only [Reply.effect, cached?_erase] at hentry
        split at hentry
        case isTrue => cases hentry
        case isFalse => exact h.bound other entry hentry
      · simp only [Reply.effect, cached?_erase] at hlater
        split at hlater
        case isTrue => cases hlater
        case isFalse => exact .inr ⟨later, hlater, rfl, rfl⟩

theorem setPeerEnabled (h : registry.Agrees database) (id : String) (enabled : Bool) :
    (registry.setPeerEnabled database id enabled).effect.Follows registry := by
  unfold Registry.setPeerEnabled
  split
  case isTrue => exact h.refuse _
  case isFalse =>
    split
    case isTrue => exact h.refuse _
    case isFalse hthere =>
      rw [Option.isNone_iff_eq_none] at hthere
      obtain ⟨peer, hpeer⟩ := Option.ne_none_iff_exists'.mp hthere
      obtain ⟨entry, hentry, rfl⟩ := Option.map_eq_some_iff.mp ((h.table id).symm.trans hpeer)
      obtain rfl : entry.peer.id = id := id_of_cached? hentry
      have hcached (other : String) :
          (registry.insert { entry.peer with enabled }).cached? other =
            (registry.cached? other).map fun old ↦
              { old with peer := if old.peer.id = entry.peer.id then { old.peer with enabled } else old.peer } := by
        rw [cached?_insert]
        by_cases hother : other = entry.peer.id
        · rw [if_pos hother, hother, hentry, Option.map_some, Option.map_some, if_pos rfl]
          rfl
        · rw [if_neg hother]
          cases hold : registry.cached? other with
          | none => rfl
          | some old => rw [Option.map_some, if_neg (by rw [id_of_cached? hold]; exact hother)]
      have hnext : (registry.insert { entry.peer with enabled }).next = registry.next := by
        rw [next_insert, contains, hentry]
        rfl
      have hlookup : registry.peer? entry.peer.id = some entry.peer := by rw [peer?, hentry]; rfl
      simp only [hlookup]
      refine ⟨⟨fun other ↦ ?_, fun row hrow ↦ ?_, fun other later hlater ↦ ?_⟩,
        ⟨hnext ▸ Nat.le_refl _, fun other later hlater ↦ ?_⟩⟩
      · simp only [Reply.effect]
        rw [Database.peer?_setEnabled, hcached, h.table, Option.map_map, Option.map_map]
        rfl
      · simp only [Reply.effect] at hrow ⊢
        obtain ⟨old, hold, rfl⟩ := List.mem_map.mp hrow
        have hname : (if old.id = entry.peer.id then { old with enabled } else old).id = old.id := by
          split <;> rfl
        rw [Database.peer?_setEnabled, hname, h.rows old hold]
        rfl
      · simp only [Reply.effect] at hlater ⊢
        rw [hcached] at hlater
        obtain ⟨old, hold, rfl⟩ := Option.map_eq_some_iff.mp hlater
        rw [hnext]
        exact h.bound other old hold
      · simp only [Reply.effect] at hlater
        rw [hcached] at hlater
        obtain ⟨old, hold, rfl⟩ := Option.map_eq_some_iff.mp hlater
        refine .inr ⟨old, hold, rfl, ?_⟩
        dsimp only
        split <;> rfl

theorem setReplicating (h : registry.Agrees database) (on : Bool) :
    (registry.setReplicating database on).effect.Follows registry := by
  unfold Registry.setReplicating
  split
  case isTrue => exact h.refuse _
  case isFalse => exact ⟨⟨h.table, h.rows, h.bound⟩, ⟨Nat.le_refl _, (Succeeds.refl registry).entries⟩⟩

theorem make (h : registry.Agrees database) (change : Change) :
    (registry.make database change).Follows registry := by
  cases change with
  | add id connection => exact h.addPeer id connection
  | remove id => exact h.removePeer id
  | setEnabled id enabled => exact h.setPeerEnabled id enabled
  | setReplicating on => exact h.setReplicating on

/-! ## Refreshing -/

/-- Rows that the cache holds as they are change nothing. -/
theorem takeInAll_of_cached {rows : List Peer} (hrows : ∀ row ∈ rows, registry.peer? row.id = some row) :
    registry.takeInAll rows = (registry, []) := by
  induction rows with
  | nil => rfl
  | cons row rest ih =>
    have htake : registry.takeIn row = (registry, []) := by
      rw [takeIn, hrows row List.mem_cons_self]
      exact if_pos rfl
    have hrest := ih fun other hother ↦ hrows other (List.mem_cons_of_mem _ hother)
    simp only [takeInAll, htake, hrest, List.append_nil]

/-- There is nothing to forget while the table has all that is cached. -/
theorem forgetMissing_eq (h : registry.Agrees database) :
    registry.forgetMissing database.peers = (registry, []) := by
  have hgone : ((registry.cached.map (·.peer.id)).filter fun id ↦ !database.peers.any (·.id == id)) = [] := by
    rw [List.filter_eq_nil_iff]
    intro id hid
    obtain ⟨entry, hentry, rfl⟩ := List.mem_map.mp hid
    have hcached : registry.contains entry.peer.id = true := by
      rw [contains, cached?, List.isSome_find?, List.any_eq_true]
      exact ⟨entry, hentry, beq_self_eq_true _⟩
    have hthere : (database.peer? entry.peer.id).isSome = true := by
      rw [h.table, Option.isSome_map]
      exact hcached
    rw [Database.isSome_peer?] at hthere
    rw [hthere]
    exact Bool.false_ne_true
  unfold forgetMissing
  dsimp only
  rw [hgone]
  rfl

/-- A refresh touches nothing but the switch. -/
theorem refresh (h : registry.Agrees database) : (registry.refresh database).effect.Follows registry := by
  unfold Registry.refresh
  split
  case isTrue => exact h.refuse _
  case isFalse =>
    have hrows : ∀ row ∈ database.peers, registry.peer? row.id = some row := by
      intro row hrow
      rw [← h.rows row hrow, h.table]
      rfl
    rw [h.forgetMissing_eq]
    dsimp only
    rw [takeInAll_of_cached hrows]
    exact ⟨⟨h.table, h.rows, h.bound⟩, ⟨Nat.le_refl _, (Succeeds.refl registry).entries⟩⟩

end Agrees

end Registry

end LogShipping
