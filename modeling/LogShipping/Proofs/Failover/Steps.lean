import LogShipping.Failover.Pass
import LogShipping.Proofs.Queue.Calls

/-!
# What a step of a failover pass asks of the queue store

A step makes at most one call that may change a queue. It drops the queue it has turned to if the cache
does not hold its peer, and it hands the queue it offers to the next node. Every other step looks things
up and leaves the database as it is.
-/

namespace LogShipping.Failover

namespace Pass

open QueueStore

/-- The call that the next step makes, if it makes one that may change a queue. -/
def call? (registry : Registry) (membership : Membership) : Pass → Option Call
  | choosing _ (key :: _) _ => if registry.contains key.peer then none else some (.drop key)
  | offering _ key (node :: _) _ _ => some (.transfer membership key node)
  | _ => none

/-- The database after a step, and what the step announced. -/
def Turn.effect (turn : Turn) : Effect := ⟨turn.database, turn.events⟩

theorem effect_step (registry : Registry) (database : Database) (membership : Membership) (pass : Pass) :
    (pass.step registry database membership).effect =
      ((pass.call? registry membership).map (serve database)).getD ⟨database, []⟩ := by
  cases pass with
  | asking | done | failed => rfl
  | gathering node =>
    rw [step]
    split <;> rfl
  | counting queues =>
    rw [step]
    split <;> rfl
  | listing queues live load =>
    rw [step]
    split <;> rfl
  | choosing survey queues report =>
    cases queues with
    | nil => rfl
    | cons key queues =>
      rw [step, call?]
      split
      case isTrue => rfl
      case isFalse =>
        dsimp only
        split <;> rfl
  | offering survey key nodes queues report =>
    cases nodes with
    | nil => rfl
    | cons node nodes => rfl

/-- No pass touches the peer table. -/
theorem peers_step (registry : Registry) (database : Database) (membership : Membership) (pass : Pass) :
    (pass.step registry database membership).database.peers = database.peers := by
  have hdatabase : (pass.step registry database membership).database = _ :=
    congrArg Effect.database (pass.effect_step registry database membership)
  rw [hdatabase]
  cases pass.call? registry membership with
  | none => rfl
  | some call => exact peers_serve database call

theorem peers_runFor (registry : Registry) (steps : Nat) (turn : Turn) :
    (runFor registry steps turn).database.peers = turn.database.peers := by
  induction steps generalizing turn with
  | zero => rfl
  | succ steps ih =>
    rw [runFor]
    split
    case h_1 => rfl
    case h_2 => exact (ih _).trans (turn.pass.peers_step registry turn.database turn.membership)

end Pass

open Pass

theorem peers_reassignAll (registry : Registry) (finished : Finished) (groups : List (List QueueKey)) :
    (reassignAll registry finished groups).database.peers = finished.database.peers := by
  induction groups generalizing finished with
  | nil => rfl
  | cons queues groups ih =>
    rw [reassignAll]
    split
    case h_1 => rfl
    case h_2 => exact (ih _).trans (peers_runFor registry _ _)

theorem peers_sweep (registry : Registry) (database : Database) (membership : Membership) :
    (sweep registry database membership).database.peers = database.peers := by
  unfold sweep
  split
  case h_1 => rfl
  case h_2 => exact peers_reassignAll registry _ _

end LogShipping.Failover
