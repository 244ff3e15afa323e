import LogShipping.Proofs.Queue.View

/-!
# What the operations of the queue store do

For each operation that can be refused, one statement says when it is carried out and what the tables
are then. Whoever reasons about the store cites these and leaves the operations closed.
-/

namespace LogShipping.QueueTables

variable {tables after : QueueTables} {key : QueueKey}

theorem enqueue_eq_ok_iff {file : FileRef} :
    tables.enqueue key file = .ok after ↔
      (tables.offset? key).isSome = true ∧
        ((tables.tailSeq? key = some file.seq ∧ after = tables) ∨
          (after = tables.addFile key file ∧ tables.lists key file.seq = false ∧
            ∀ tail, tables.tailSeq? key = some tail → tail < file.seq)) := by
  unfold enqueue
  split
  case h_1 habsent => simp [habsent]
  case h_2 offset hqueue =>
    rw [hqueue, Option.isSome_some]
    split
    case h_1 hempty =>
      have hnew := tailSeq?_eq_none_iff.mp hempty file.seq
      simp [hempty, hnew, eq_comm]
    case h_2 tail htail =>
      rw [htail]
      split
      case isTrue hsame => simp [← hsame, @eq_comm _ tables]
      case isFalse hother =>
        split
        case isTrue hold =>
          have hnot : ¬tail < file.seq := fun h ↦ UInt64.lt_irrefl _ (UInt64.lt_trans h hold)
          simp [hother, hnot]
        case isFalse hnew =>
          have hlater : tail < file.seq :=
            UInt64.lt_of_le_of_ne (UInt64.not_lt.mp hnew) hother
          split
          case isTrue hlisted => simp [hother, hlisted]
          case isFalse hlisted => simp [hother, hlisted, hlater, eq_comm]

theorem advance_eq_ok_iff {start : Nat} {target : LogPosition} :
    tables.advance key start target = .ok after ↔
      tables.headSeq? key = some target.seq ∧
        ∃ current, tables.offset? key = some current ∧
          ((target.offset = current ∧ after = tables) ∨
            (current < target.offset ∧ start = current ∧
              after = tables.setOffset key target.offset)) := by
  unfold advance
  split
  case h_1 habsent => simp [habsent]
  case h_2 current hqueue =>
    simp only [hqueue, Option.some.injEq, exists_eq_left']
    split
    case isTrue hhead => simp [hhead]
    case isFalse hhead =>
      rw [ne_eq, Decidable.not_not] at hhead
      split
      case isTrue hback =>
        simp only [reduceCtorEq, hhead, true_and, false_iff, not_or, not_and]
        constructor <;> omega
      case isFalse hforth =>
        split
        case isTrue hsame => simp [hhead, hsame, eq_comm]
        case isFalse hother =>
          have hlater : current < target.offset := by omega
          split
          case isTrue hstart => simp [hother, hstart]
          case isFalse hstart =>
            rw [ne_eq, Decidable.not_not] at hstart
            simp [hhead, hother, hlater, hstart, eq_comm]

theorem finish_eq_ok_iff {seq : UInt64} :
    tables.finish key seq = .ok after ↔
      (tables.offset? key).isSome = true ∧ tables.headSeq? key = some seq ∧
        after = (tables.removeFile key seq).setOffset key 0 := by
  unfold finish
  split
  case h_1 habsent => simp [habsent]
  case h_2 current hqueue =>
    rw [hqueue, Option.isSome_some]
    dsimp only
    split
    case isTrue hhead => simp [hhead]
    case isFalse hhead =>
      rw [ne_eq, Decidable.not_not] at hhead
      simp [hhead, eq_comm]

/-- A queue is handed over in one of two ways: it gets a new name, or it is folded into the queue of
its origin. -/
theorem handOver_eq_ok_iff {newOwner : String} :
    tables.handOver key newOwner = .ok after ↔
      ∃ offset, tables.offset? key = some offset ∧
        ((tables.offset? (key.withOwner newOwner) = none ∧
            after = tables.rename key (key.withOwner newOwner)) ∨
          ∃ there, tables.offset? (key.withOwner newOwner) = some there ∧ newOwner = key.origin ∧
            after = tables.merge key offset (key.withOwner newOwner) there) := by
  unfold handOver
  dsimp only
  split
  case h_1 habsent => simp [habsent]
  case h_2 offset hqueue =>
    simp only [hqueue, Option.some.injEq, exists_eq_left']
    split
    case h_1 habsent => simp [habsent, eq_comm]
    case h_2 there hthere =>
      have hown : (key.withOwner newOwner).isRecovered = true ↔ newOwner ≠ key.origin := by
        simp [QueueKey.isRecovered, QueueKey.withOwner]
      split
      case isTrue hrecovered => simp [hthere, hown.mp hrecovered]
      case isFalse horigin =>
        rw [hown, ne_eq, Decidable.not_not] at horigin
        subst horigin
        simp [hthere, @eq_comm _ _ after]

end LogShipping.QueueTables
