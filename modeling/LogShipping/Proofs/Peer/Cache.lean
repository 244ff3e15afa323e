import LogShipping.Peer.Registry

/-!
# What a registry's cache holds

A cache is seen through one question: what it holds under a name. Every change of the cache has one
equation for it. A peer that is taken in anew gets the next registration, and one that is there keeps
its own. After a refresh the cache holds exactly the names of the table.
-/

namespace LogShipping

/-! ## Rows by name -/

section Rows

variable {α : Type} {name : α → String} {id : String}

/-- A change of rows that keeps their names can be made before or after a row is looked up. -/
theorem find?_map_of_name {change : α → α} (hname : ∀ row, name (change row) = name row) (rows : List α) :
    (rows.map change).find? (name · == id) = (rows.find? (name · == id)).map change := by
  have hsame : ((name · == id) ∘ change) = (name · == id) := by
    funext row
    rw [Function.comp_apply, hname]
  rw [List.find?_map, hsame]

/-- Rows of another name stay, and those of the name are gone. -/
theorem find?_filter_name_ne (gone : String) (rows : List α) :
    (rows.filter (name · != gone)).find? (name · == id) =
      if id = gone then none else rows.find? (name · == id) := by
  rw [List.find?_filter]
  by_cases hid : id = gone
  · rw [if_pos hid, List.find?_eq_none]
    intro row _
    simp [hid]
  · rw [if_neg hid]
    congr 1
    funext row
    by_cases hrow : name row = id
    · simp [hrow, hid]
    · simp [hrow]

end Rows

theorem Database.isSome_peer? (database : Database) (id : String) :
    (database.peer? id).isSome = database.peers.any (·.id == id) := by
  rw [Database.peer?, List.isSome_find?]

namespace Registry

variable {registry : Registry} {id : String}

/-- An entry stands under its own name. -/
theorem id_of_cached? {entry : CachedPeer} (h : registry.cached? id = some entry) :
    entry.peer.id = id := by
  have hfound := List.find?_some h
  exact beq_iff_eq.mp hfound

section Changes

variable (registry : Registry) (id : String)

theorem cached?_insert (peer : Peer) :
    (registry.insert peer).cached? id =
      if id = peer.id then
        some ⟨peer, ((registry.cached? id).map (·.registration)).getD registry.next⟩
      else registry.cached? id := by
  unfold insert
  split
  case isTrue hthere =>
    have hnames (entry : CachedPeer) :
        (if entry.peer.id = peer.id then { entry with peer } else entry).peer.id = entry.peer.id := by
      split
      case isTrue hsame => exact hsame.symm
      case isFalse => rfl
    show (registry.cached.map _).find? _ = _
    rw [find?_map_of_name hnames]
    show (registry.cached? id).map _ = _
    by_cases hid : id = peer.id
    · subst hid
      obtain ⟨entry, hentry⟩ := Option.isSome_iff_exists.mp hthere
      rw [hentry, if_pos rfl, Option.map_some, if_pos (id_of_cached? hentry)]
      rfl
    · rw [if_neg hid]
      cases hentry : registry.cached? id with
      | none => rfl
      | some entry =>
        have hname := id_of_cached? hentry
        rw [Option.map_some, if_neg (by rw [hname]; exact hid)]
  case isFalse hnot =>
    show (registry.cached ++ [_]).find? _ = _
    rw [List.find?_append]
    show (registry.cached? id).or _ = _
    by_cases hid : id = peer.id
    · subst hid
      have hnone : registry.cached? peer.id = none := Option.not_isSome_iff_eq_none.mp hnot
      rw [hnone, if_pos rfl]
      simp
    · have hname : (peer.id == id) = false := beq_eq_false_iff_ne.mpr (Ne.symm hid)
      rw [if_neg hid, List.find?_singleton, hname, if_neg Bool.false_ne_true, Option.or_none]

/-- A peer that is taken in anew uses up a number. -/
theorem next_insert (peer : Peer) :
    (registry.insert peer).next =
      if registry.contains peer.id then registry.next else registry.next + 1 := by
  unfold insert
  split <;> rfl

theorem cached?_erase (gone : String) :
    (registry.erase gone).cached? id = if id = gone then none else registry.cached? id :=
  find?_filter_name_ne gone registry.cached

theorem cached?_foldl_erase (gone : List String) :
    (gone.foldl erase registry).cached? id = if id ∈ gone then none else registry.cached? id := by
  induction gone generalizing registry with
  | nil => simp
  | cons first rest ih =>
    rw [List.foldl_cons, ih, cached?_erase]
    by_cases hrest : id ∈ rest
    · rw [if_pos hrest, if_pos (List.mem_cons_of_mem _ hrest)]
    · rw [if_neg hrest]
      simp [List.mem_cons, hrest]

/-- What the table no longer holds is gone, and the rest stays. -/
theorem cached?_forgetMissing (rows : List Peer) :
    (registry.forgetMissing rows).1.cached? id =
      if rows.any (·.id == id) then registry.cached? id else none := by
  unfold forgetMissing
  dsimp only
  rw [cached?_foldl_erase]
  by_cases hrow : rows.any (·.id == id) = true
  · rw [if_pos hrow, if_neg]
    simp [hrow]
  · rw [if_neg hrow]
    cases hentry : registry.cached? id with
    | none => exact ite_self _
    | some entry =>
      rw [if_pos]
      rw [List.mem_filter]
      refine ⟨List.mem_map.mpr ⟨entry, List.mem_of_find?_eq_some hentry, id_of_cached? hentry⟩, ?_⟩
      rw [Bool.not_eq_true] at hrow
      rw [hrow]
      rfl

/-! ## Which names there are -/

theorem contains_insert (peer : Peer) :
    (registry.insert peer).contains id = (peer.id == id || registry.contains id) := by
  rw [contains, cached?_insert]
  by_cases hid : id = peer.id
  · rw [if_pos hid, beq_iff_eq.mpr hid.symm]
    rfl
  · rw [if_neg hid, beq_eq_false_iff_ne.mpr (Ne.symm hid)]
    rfl

theorem contains_erase (gone : String) :
    (registry.erase gone).contains id = (id != gone && registry.contains id) := by
  rw [contains, cached?_erase]
  by_cases hid : id = gone
  · rw [if_pos hid, bne_eq_false_iff_eq.mpr hid]
    rfl
  · rw [if_neg hid, bne_iff_ne.mpr hid]
    rfl

theorem contains_takeIn (row : Peer) :
    (registry.takeIn row).1.contains id = (row.id == id || registry.contains id) := by
  unfold takeIn
  split
  case h_1 => exact contains_insert registry id row
  case h_2 peer hpeer =>
    split
    case isTrue =>
      by_cases hid : row.id = id
      · have hthere : registry.contains row.id = true := by
          rw [contains, ← Option.isSome_map]
          exact Option.isSome_iff_exists.mpr ⟨peer, hpeer⟩
        rw [← hid, hthere, Bool.or_true]
      · rw [beq_eq_false_iff_ne.mpr hid, Bool.false_or]
    case isFalse => exact contains_insert registry id row

theorem contains_takeInAll (rows : List Peer) :
    (registry.takeInAll rows).1.contains id = (rows.any (·.id == id) || registry.contains id) := by
  induction rows generalizing registry with
  | nil => rfl
  | cons row rest ih =>
    show ((registry.takeIn row).1.takeInAll rest).1.contains id = _
    rw [ih, contains_takeIn, List.any_cons, ← Bool.or_assoc, Bool.or_comm (rest.any _)]

end Changes

theorem database_refresh (registry : Registry) (database : Database) :
    (registry.refresh database).database = database := by
  unfold refresh
  split <;> rfl

/-- A refreshed cache holds the names of the table. -/
theorem contains_refresh (registry : Registry) {database : Database} (hup : database.reachable = true)
    (id : String) :
    (registry.refresh database).registry.contains id = (database.peer? id).isSome := by
  have hforgot : (registry.forgetMissing database.peers).1.contains id =
      (database.peers.any (·.id == id) && registry.contains id) := by
    rw [contains, cached?_forgetMissing]
    cases database.peers.any (·.id == id) <;> rfl
  unfold refresh
  rw [hup]
  show ((registry.forgetMissing database.peers).1.takeInAll database.peers).1.contains id = _
  rw [contains_takeInAll, hforgot, Database.isSome_peer?]
  cases database.peers.any (·.id == id) <;> rfl

end Registry

end LogShipping
