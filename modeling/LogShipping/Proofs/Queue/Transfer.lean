import LogShipping.Proofs.Queue.Pending
import LogShipping.Proofs.Queue.Transactions

/-!
# What a transfer keeps

A transfer that answers with a new name has handed the queue over: it stands under that name, with all
that was pending under the old name and under the new one. There is one exception. The name a queue is
handed to may be the one it has, which happens where the new owner is the present one. A recovered queue
is then refused, since its owner already holds the slot. The queue of the origin itself is folded into
itself, and deleted as the source of that merge.
-/

namespace LogShipping

namespace QueueTables

/-- After a queue was handed from one name to another it exists under the new one, with everything
pending that was pending under either, and no longer under the old one. -/
structure HandedOver (tables after : QueueTables) (key target : QueueKey) : Prop where
  exist : (after.get? target).isSome = true
  keep : ∀ position, tables.Pending key position ∨ tables.Pending target position →
    after.Pending target position
  moved : target ≠ key → after.get? key = none

variable {tables after : QueueTables} {key target : QueueKey}

/-- What does not exist has nothing pending. -/
theorem not_pending {position : LogPosition} (habsent : tables.offset? key = none) :
    ¬tables.Pending key position := by
  rw [Pending, get?_eq_none_iff.mpr habsent]
  exact id

theorem handedOver_rename (wf : tables.WellFormed) (hne : target ≠ key)
    (hqueue : (tables.offset? key).isSome = true) (habsent : tables.offset? target = none) :
    HandedOver tables (tables.rename key target) key target where
  exist := by
    rw [get?_isSome, offset?_rename habsent, if_pos rfl]
    exact hqueue
  keep := by
    rintro position (hpending | hpending)
    · exact (pending_rename wf habsent).mpr hpending
    · exact absurd hpending (not_pending habsent)
  moved := by
    intro _
    rw [get?_eq_none_iff, offset?_rename habsent, if_neg hne.symm, if_pos rfl]

theorem handedOver_merge (wf : tables.WellFormed) (hne : target ≠ key) {offset there : Nat}
    (hoffset : tables.offset? key = some offset) (hthere : tables.offset? target = some there) :
    HandedOver tables (tables.merge key offset target there) key target where
  exist := by
    rw [get?_isSome, offset?_merge hne.symm _ _ hthere]
    rfl
  keep _ := pending_merge wf hne.symm hoffset hthere
  moved := by
    intro _
    rw [get?_eq_none_iff, merge, offset?_remove, if_pos rfl]

/-- Folded into itself, a queue is gone. -/
theorem get?_merge_self (offset there : Nat) : (tables.merge key offset key there).get? key = none := by
  rw [get?_eq_none_iff, merge, offset?_remove, if_pos rfl]

end QueueTables

namespace QueueStore

variable {database : Database} {membership : Membership} {key target : QueueKey} {newOwner : String}

/-- A transfer succeeds only by handing the queue over, and answers the name it has from then on. -/
theorem handOver_of_transfer
    (h : (transfer database membership key newOwner).1.answer = .ok target) :
    target = key.withOwner newOwner ∧
      database.queues.handOver key newOwner =
        .ok (transfer database membership key newOwner).1.database.queues := by
  rcases transfer_cases database membership key newOwner with ⟨after, hover, hreply⟩ | ⟨error, hreply⟩
  · rw [hreply] at h ⊢
    exact ⟨(Except.ok.inj h).symm, hover⟩
  · rw [hreply] at h
    cases h

theorem withOwner_eq_self_iff : key.withOwner newOwner = key ↔ newOwner = key.owner := by
  obtain ⟨owner, peer, origin⟩ := key
  simp [QueueKey.withOwner]

/-- A successful transfer to another owner hands the queue over with all that was pending, and one to
the present owner does not: it deletes the queue. -/
theorem transfer_handedOver_iff (hreach : database.queues.Reachable)
    (h : (transfer database membership key newOwner).1.answer = .ok target) :
    database.queues.HandedOver (transfer database membership key newOwner).1.database.queues key target ↔
      newOwner ≠ key.owner := by
  have wf := hreach.wellFormed
  obtain ⟨rfl, hover⟩ := handOver_of_transfer h
  obtain ⟨offset, hoffset, hway⟩ := QueueTables.handOver_eq_ok_iff.mp hover
  constructor
  · intro hkept howner
    have hself := withOwner_eq_self_iff.mpr howner
    have hexist := hkept.exist
    rw [hself] at hway hexist
    rcases hway with ⟨habsent, -⟩ | ⟨there, -, -, hafter⟩
    · rw [hoffset] at habsent
      cases habsent
    · rw [hafter, QueueTables.get?_merge_self] at hexist
      exact Bool.false_ne_true hexist
  · intro howner
    have hne : key.withOwner newOwner ≠ key := fun hself ↦ howner (withOwner_eq_self_iff.mp hself)
    rcases hway with ⟨habsent, hafter⟩ | ⟨there, hthere, -, hafter⟩
    · rw [hafter]
      exact QueueTables.handedOver_rename wf hne (by rw [hoffset]; rfl) habsent
    · rw [hafter]
      exact QueueTables.handedOver_merge wf hne hoffset hthere

/-- The queue of a dead origin and the one another node recovered from it. -/
def takenBack : Database :=
  { Database.empty with
    queues := .run .empty
      [.create (.own "rs-1" "2") (some (⟨4, "rs-1.0000000004.wal"⟩, 200)),
        .create ⟨"rs-2", "2", "rs-1"⟩ (some (⟨4, "rs-1.0000000004.wal"⟩, 50))] }

/-- The recovered queue goes back to its origin. -/
theorem transfer_back_handedOver :
    takenBack.queues.HandedOver
        (transfer takenBack .empty ⟨"rs-2", "2", "rs-1"⟩ "rs-1").1.database.queues
        ⟨"rs-2", "2", "rs-1"⟩ (.own "rs-1" "2") :=
  (transfer_handedOver_iff ⟨_, rfl⟩ rfl).mpr (by decide)

/-- The origin's own queue, handed to the origin, is gone although the transfer succeeds. -/
theorem transfer_to_origin_deletes :
    takenBack.queues.Reachable ∧
      (transfer takenBack .empty (.own "rs-1" "2") "rs-1").1.answer = .ok (.own "rs-1" "2") ∧
      ¬takenBack.queues.HandedOver
        (transfer takenBack .empty (.own "rs-1" "2") "rs-1").1.database.queues
        (.own "rs-1" "2") (.own "rs-1" "2") := by
  refine ⟨⟨_, rfl⟩, rfl, fun hkept ↦ ?_⟩
  have hgone : (transfer takenBack .empty (.own "rs-1" "2") "rs-1").1.database.queues.get?
      (.own "rs-1" "2") = none := QueueTables.get?_merge_self 200 200
  have hexist := hkept.exist
  rw [hgone] at hexist
  exact Bool.false_ne_true hexist

end QueueStore

end LogShipping
