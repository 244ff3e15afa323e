import LogShipping.Proofs.Worker.Journal

/-!
# The ledger of a queue

The ledger ties the position of a queue to the records it has passed and to the shipments that were
stored on the way. It stays in order whatever others do, and when the position is moved over a stretch
whose shipment is stored, a file that was read to its end is taken off, or an empty queue is dropped.
-/

namespace LogShipping.Worker

open Log QueueTables

/-! ## The position in a scene -/

namespace Scene

variable {scene : Scene} {file : FileRef} {offset : Nat}

theorem position?_eq_some_iff :
    scene.position? = some (file, offset) ↔
      scene.listed.head? = some file ∧ scene.database.queues.offset? scene.key = some offset := by
  unfold position? queue? get? listed Queue.head?
  cases scene.database.queues.offset? scene.key with
  | none => simp
  | some current =>
    simp only [Option.map_some, Option.bind_some, Option.map_eq_some_iff, Prod.mk.injEq,
      Option.some.injEq]
    constructor
    · rintro ⟨head, hhead, rfl, hoffset⟩
      exact ⟨hhead, hoffset⟩
    · rintro ⟨hhead, hoffset⟩
      exact ⟨file, hhead, rfl, hoffset⟩

theorem position?_eq_none_of_empty (h : scene.listed = []) : scene.position? = none := by
  rw [Option.eq_none_iff_forall_ne_some]
  rintro ⟨file, offset⟩ hposition
  have hhead := (position?_eq_some_iff.mp hposition).1
  rw [h] at hhead
  cases hhead

/-- A queue with files has an offset. -/
theorem offset_of_listed (wf : scene.database.queues.WellFormed) (h : scene.listed.head? = some file) :
    ∃ offset, scene.database.queues.offset? scene.key = some offset := by
  have hlisted : scene.database.queues.lists scene.key file.seq = true :=
    lists_iff_mem_filesOf.mpr ⟨file, List.mem_of_head? h, rfl⟩
  exact Option.isSome_iff_exists.mp (wf.owned scene.key file.seq hlisted)

end Scene

/-! ## The ledger -/

/-- With these files listed and this offset at the beginning, some files taken off since and some
shipments stored, the scene is in order. -/
structure Ledger (files : List FileRef) (start : Nat) (finished : List FileRef)
    (stored : List Shipment) (scene : Scene) : Prop where
  wellFormed : scene.database.queues.WellFormed
  whole : ∀ offset, scene.database.queues.offset? scene.key = some offset →
    Whole scene.directory scene.listed offset
  /-- A queue without files stands at the start. -/
  fresh : ∀ offset, scene.database.queues.offset? scene.key = some offset → scene.listed = [] →
    offset = 0
  listed : ∃ added, finished ++ scene.listed = files ++ added
  ascending : (finished ++ scene.listed).Pairwise fun x y ↦ rank x.seq < rank y.seq
  /-- The last file of a node's own queue is not taken off. -/
  unfinished : scene.listed = [] → scene.key.isRecovered = true ∨ finished = []
  passed : ∃ covered, Passed scene.directory start finished scene.position? covered ∧
    stored.flatMap (·.entries) = covered.filterMap (Entry.filter scene.schema)

namespace Ledger

variable {files finished : List FileRef} {start : Nat} {stored : List Shipment} {scene after : Scene}

/-! ### What others do -/

theorem whole_of_elsewhere (h : Ledger files start finished stored scene)
    (helse : Elsewhere finished scene after) {offset : Nat}
    (hat : scene.database.queues.offset? scene.key = some offset) :
    Whole after.directory after.listed offset := by
  obtain ⟨added, hnow, -, hadded⟩ := helse.listed_append
  obtain ⟨hfirst, hlater⟩ := h.whole offset hat
  rw [hnow]
  cases hold : scene.listed with
  | nil =>
    obtain rfl := h.fresh offset hat hold
    constructor
    · intro head hhead
      exact hadded head (List.mem_of_head? hhead)
    · intro file hfile
      exact hadded file (List.mem_of_mem_tail hfile)
  | cons head later =>
    rw [hold] at hfirst hlater
    have hgrown (file : FileRef) (hmem : file ∈ head :: later) :
        Grows scene.directory after.directory file := helse.grown file (hold ▸ hmem)
    constructor
    · intro first hhead
      obtain rfl : head = first := Option.some.inj hhead
      exact (hgrown head List.mem_cons_self).legible (hfirst head rfl)
    · intro file hfile
      rcases List.mem_append.mp hfile with hmem | hmem
      · exact (hgrown file (List.mem_cons_of_mem _ hmem)).legible (hlater file hmem)
      · exact hadded file hmem

/-- A file that is listed anew comes after one that was listed, and that after all finished ones. -/
theorem ascending_of_elsewhere (h : Ledger files start finished stored scene)
    (helse : Elsewhere finished scene after) :
    (finished ++ after.listed).Pairwise fun x y ↦ rank x.seq < rank y.seq := by
  obtain ⟨added, hnow, hrecovered, -⟩ := helse.listed_append
  obtain ⟨hfinished, -, hbefore⟩ := List.pairwise_append.mp h.ascending
  have hstrict : after.listed.Pairwise fun x y ↦ rank x.seq < rank y.seq :=
    helse.wellFormed.pairwise_filesOf_lt after.key
  rw [List.pairwise_append]
  refine ⟨hfinished, hstrict, fun x hx y hy ↦ ?_⟩
  rw [hnow] at hy hstrict
  rcases List.mem_append.mp hy with hold | hnew
  · exact hbefore x hx y hold
  · cases hthere : scene.listed with
    | nil =>
      rcases h.unfinished hthere with hkey | hnone
      · rw [hrecovered hkey] at hnew
        cases hnew
      · rw [hnone] at hx
        cases hx
    | cons head later =>
      have hmem : head ∈ scene.listed := hthere ▸ List.mem_cons_self
      calc rank x.seq
          < rank head.seq := hbefore x hx head hmem
        _ < rank y.seq := (List.pairwise_append.mp hstrict).2.2 head hmem y hnew

/-- The position stays, unless the queue had no files and its first one is listed. -/
theorem passed_of_elsewhere (h : Ledger files start finished stored scene)
    (helse : Elsewhere finished scene after) {covered : List Entry}
    (hpassed : Passed scene.directory start finished scene.position? covered) :
    Passed after.directory start finished after.position? covered := by
  obtain ⟨added, hnow, -, hadded⟩ := helse.listed_append
  have hmoved : Passed after.directory start finished scene.position? covered := by
    apply hpassed.transport
    · intro done hdone
      exact helse.closed done (.inl hdone)
    · intro head offset hposition
      exact helse.grown head (List.mem_of_head? (Scene.position?_eq_some_iff.mp hposition).1)
  cases hold : scene.listed with
  | cons head later =>
    have hhead : scene.listed.head? = some head := by rw [hold]; rfl
    obtain ⟨offset, hat⟩ := Scene.offset_of_listed h.wellFormed hhead
    have hthere : scene.position? = some (head, offset) :=
      Scene.position?_eq_some_iff.mpr ⟨hhead, hat⟩
    have hposition : after.position? = some (head, offset) := by
      rw [Scene.position?_eq_some_iff, helse.offset_eq, hnow, hold]
      exact ⟨rfl, hat⟩
    rw [hposition, ← hthere]
    exact hmoved
  | nil =>
    rw [Scene.position?_eq_none_of_empty hold] at hmoved
    cases hadd : added with
    | nil =>
      rw [Scene.position?_eq_none_of_empty (by rw [hnow, hold, hadd]; rfl)]
      exact hmoved
    | cons head later =>
      have hhead : after.listed.head? = some head := by rw [hnow, hold, hadd]; rfl
      obtain ⟨offset, hat⟩ := Scene.offset_of_listed helse.wellFormed hhead
      obtain rfl := h.fresh offset (helse.offset_eq ▸ hat) hold
      rw [Scene.position?_eq_some_iff.mpr ⟨hhead, hat⟩]
      exact hmoved.enter (hadded head (hadd ▸ List.mem_cons_self))

theorem elsewhere (h : Ledger files start finished stored scene)
    (helse : Elsewhere finished scene after) : Ledger files start finished stored after := by
  obtain ⟨added, hnow, -⟩ := helse.listed_append
  constructor
  case wellFormed => exact helse.wellFormed
  case whole =>
    intro offset hat
    exact h.whole_of_elsewhere helse (helse.offset_eq ▸ hat)
  case fresh =>
    intro offset hat hempty
    rw [hnow, List.append_eq_nil_iff] at hempty
    exact h.fresh offset (helse.offset_eq ▸ hat) hempty.1
  case listed =>
    obtain ⟨earlier, hfiles⟩ := h.listed
    exact ⟨earlier ++ added, by rw [hnow, ← List.append_assoc, hfiles, List.append_assoc]⟩
  case ascending => exact h.ascending_of_elsewhere helse
  case unfinished =>
    intro hempty
    rw [hnow, List.append_eq_nil_iff] at hempty
    rw [helse.key]
    exact h.unfinished hempty.1
  case passed =>
    obtain ⟨covered, hpassed, hstored⟩ := h.passed
    exact ⟨covered, h.passed_of_elsewhere helse hpassed, by rw [helse.schema, hstored]⟩

/-! ### What the worker does -/

/-- The position moves to the end of a stretch whose records, filtered, are now stored. -/
theorem advance (h : Ledger files start finished stored scene) {file : FileRef} {offset stop : Nat}
    {read : List Entry} {shipment : Shipment} {queues : QueueTables}
    (hposition : scene.position? = some (file, offset))
    (hread : Holds scene.directory file offset stop read)
    (hshipped : shipment.entries = read.filterMap (Entry.filter scene.schema))
    (hlegible : Legible scene.directory file stop)
    (hadvance : scene.database.queues.advance scene.key offset ⟨file.seq, stop⟩ = .ok queues) :
    Ledger files start finished (stored ++ [shipment]) (scene.withQueues queues) ∧
      (scene.withQueues queues).position? = some (file, stop) ∧
      (scene.withQueues queues).listed = scene.listed := by
  obtain ⟨hhead, -⟩ := Scene.position?_eq_some_iff.mp hposition
  obtain ⟨queue, hqueue, -, hafter⟩ := get?_of_advance hadvance
  obtain ⟨_, -, rfl⟩ := get?_eq_some_iff.mp hqueue
  obtain ⟨current, hcurrent, hsame⟩ := get?_eq_some_iff.mp hafter
  injection hsame with _ hfiles hstop
  subst hstop
  have hlisted : (scene.withQueues queues).listed = scene.listed := hfiles.symm
  have hmoved : (scene.withQueues queues).position? = some (file, stop) := by
    rw [Scene.position?_eq_some_iff, hlisted]
    exact ⟨hhead, hcurrent⟩
  refine ⟨?_, hmoved, hlisted⟩
  constructor
  case wellFormed => exact h.wellFormed.perform (.advance scene.key offset ⟨file.seq, stop⟩) hadvance
  case whole =>
    intro other hother
    obtain rfl : stop = other := Option.some.inj (hcurrent.symm.trans hother)
    obtain ⟨offset', hoffset'⟩ := Scene.offset_of_listed h.wellFormed hhead
    rw [hlisted]
    refine ⟨fun head hfirst ↦ ?_, (h.whole offset' hoffset').2⟩
    obtain rfl : file = head := Option.some.inj (hhead.symm.trans hfirst)
    exact hlegible
  case fresh =>
    intro _ _ hempty
    rw [hlisted] at hempty
    rw [hempty] at hhead
    cases hhead
  case listed => exact hlisted ▸ h.listed
  case ascending => exact hlisted ▸ h.ascending
  case unfinished => exact hlisted ▸ h.unfinished
  case passed =>
    obtain ⟨covered, hpassed, hstored⟩ := h.passed
    rw [hposition] at hpassed
    refine ⟨covered ++ read, hmoved ▸ hpassed.advance hread, ?_⟩
    rw [List.flatMap_append, hstored, List.filterMap_append, List.flatMap_singleton, hshipped]
    rfl

/-- A complete file that was read to its end is taken off. -/
theorem finish (h : Ledger files start finished stored scene) {file : FileRef} {offset : Nat}
    {queues : QueueTables} (hposition : scene.position? = some (file, offset))
    (hends : EndsAt scene.directory file offset) (hcomplete : scene.Complete file)
    (hfinish : scene.database.queues.finish scene.key file.seq = .ok queues) :
    Ledger files start (finished ++ [file]) stored (scene.withQueues queues) := by
  obtain ⟨hhead, hoffset⟩ := Scene.position?_eq_some_iff.mp hposition
  obtain ⟨head, later, current, hqueue, -, hafter⟩ := get?_of_finish h.wellFormed hfinish
  obtain ⟨_, -, hthere⟩ := get?_eq_some_iff.mp hqueue
  injection hthere with _ hfiles _
  obtain ⟨first, hzero, hnow⟩ := get?_eq_some_iff.mp hafter
  injection hnow with _ hlater hstart
  subst hstart
  have hold : scene.listed = file :: later := by
    have hlisted : scene.listed = head :: later := hfiles.symm
    rw [hlisted] at hhead ⊢
    rw [Option.some.inj hhead]
  have hlisted : (scene.withQueues queues).listed = later := hlater.symm
  have hwhole := h.whole offset hoffset
  rw [hold] at hwhole
  constructor
  case wellFormed => exact h.wellFormed.perform (.finish scene.key file.seq) hfinish
  case whole =>
    intro other hother
    obtain rfl : 0 = other := Option.some.inj (hzero.symm.trans hother)
    rw [hlisted]
    exact ⟨fun next hnext ↦ hwhole.2 next (List.mem_of_head? hnext),
      fun next hnext ↦ hwhole.2 next (List.mem_of_mem_tail hnext)⟩
  case fresh =>
    intro other hother _
    exact (Option.some.inj (hzero.symm.trans hother)).symm
  case listed =>
    rw [hlisted, List.append_assoc, List.singleton_append, ← hold]
    exact h.listed
  case ascending =>
    rw [hlisted, List.append_assoc, List.singleton_append, ← hold]
    exact h.ascending
  case unfinished =>
    intro hempty
    rw [hlisted] at hempty
    rcases hcomplete.2 with hrecovered | hnext
    · exact .inl hrecovered
    · rw [hold, hempty] at hnext
      cases hnext
  case passed =>
    obtain ⟨covered, hpassed, hstored⟩ := h.passed
    rw [hposition] at hpassed
    have hdone := hpassed.finish hends
    refine ⟨covered, ?_, hstored⟩
    cases later with
    | nil =>
      rw [Scene.position?_eq_none_of_empty hlisted]
      exact hdone
    | cons next rest =>
      have hnext : (scene.withQueues queues).position? = some (next, 0) :=
        Scene.position?_eq_some_iff.mpr ⟨by rw [hlisted]; rfl, hzero⟩
      rw [hnext]
      exact hdone.enter (hwhole.2 next List.mem_cons_self)

/-- A queue without files is dropped. -/
theorem drop (h : Ledger files start finished stored scene) (hempty : scene.listed = []) :
    Ledger files start finished stored
      (scene.withQueues (scene.database.queues.remove scene.key)) := by
  have hwf := h.wellFormed.remove scene.key
  have hnone : (scene.database.queues.remove scene.key).offset? scene.key = none := by
    rw [offset?_remove, if_pos rfl]
  have hlisted : (scene.withQueues (scene.database.queues.remove scene.key)).listed = [] := by
    rw [List.eq_nil_iff_forall_not_mem]
    intro file hfile
    have hlists : (scene.database.queues.remove scene.key).lists scene.key file.seq = true :=
      lists_iff_mem_filesOf.mpr ⟨file, hfile, rfl⟩
    rw [hwf.not_lists hnone file.seq] at hlists
    cases hlists
  constructor
  case wellFormed => exact hwf
  case whole =>
    intro offset hoffset
    cases hnone.symm.trans hoffset
  case fresh =>
    intro offset hoffset
    cases hnone.symm.trans hoffset
  case listed =>
    rw [hlisted, ← hempty]
    exact h.listed
  case ascending =>
    rw [hlisted, ← hempty]
    exact h.ascending
  case unfinished => exact fun _ ↦ h.unfinished hempty
  case passed =>
    obtain ⟨covered, hpassed, hstored⟩ := h.passed
    rw [Scene.position?_eq_none_of_empty hempty] at hpassed
    exact ⟨covered, Scene.position?_eq_none_of_empty hlisted ▸ hpassed, hstored⟩

end Ledger

end LogShipping.Worker
