import LogShipping.Proofs.Queue.Position
import LogShipping.Proofs.Queue.Transactions

/-!
# Calls of the queue store

Whoever uses the queue store makes one call after the other, with any arguments, and a transfer asks the
membership as it stands then. A call that is carried out comes to one operation on the tables, and any
other leaves the database as it was. Its announcements tell which queue it was about: a queue that appears
under a key is announced as created there or transferred to it, and one that is announced as dropped or
transferred is no longer found under the key it had.
-/

namespace LogShipping

/-- The key that a queue stands under from then on. -/
def QueueEvent.arrival? : QueueEvent → Option QueueKey
  | .created key => some key
  | .transferred _ target => some target
  | .dropped _ => none

/-- The key that a queue is no longer found under. -/
def QueueEvent.departure? : QueueEvent → Option QueueKey
  | .created _ => none
  | .transferred source _ => some source
  | .dropped key => some key

namespace QueueTables

variable {tables after : QueueTables} {key other : QueueKey}

/-- The key that an operation may bring a queue to. -/
def Operation.arrival? : Operation → Option QueueKey
  | .create key _ => some key
  | .handOver key newOwner => some (key.withOwner newOwner)
  | _ => none

theorem offset?_create_of_ne (hne : other ≠ key) (seed : Option (FileRef × Nat)) :
    (tables.create key seed).2.offset? other = tables.offset? other := by
  have hrow (offset : Nat) :
      offset? { tables with offsets := tables.offsets ++ [(key, offset)] } other = tables.offset? other := by
    rw [offset?, List.lookup_append, lookup_row, if_neg hne]
    exact Option.or_none
  unfold create
  split
  case h_1 => rfl
  case h_2 =>
    split
    case h_1 => exact hrow 0
    case h_2 file offset => exact hrow offset

/-- A queue that was handed over is no longer found under the key it had, unless it was handed to the
owner it had. Even then it is gone, since it was folded into itself. -/
theorem offset?_of_handOver {newOwner : String} (h : tables.handOver key newOwner = .ok after) :
    after.offset? key = none := by
  obtain ⟨offset, hoffset, ⟨habsent, rfl⟩ | ⟨there, -, -, rfl⟩⟩ := handOver_eq_ok_iff.mp h
  · have hne : key ≠ key.withOwner newOwner := by
      intro heq
      rw [← heq, hoffset] at habsent
      cases habsent
    rw [offset?_rename habsent, if_neg hne, if_pos rfl]
  · rw [merge, offset?_remove, if_pos rfl]

/-- An operation after which a queue is there that was not is one that brings it. -/
theorem arrival_of_appears {operation : Operation} (habsent : tables.offset? key = none)
    (h : tables.perform operation = .ok after) (hthere : (after.offset? key).isSome = true) :
    operation.arrival? = some key := by
  have hstill (hnone : after.offset? key = none) : False := by
    rw [hnone] at hthere
    exact Bool.false_ne_true hthere
  have hset (tables : QueueTables) (changed : QueueKey) (offset : Nat)
      (habsent : tables.offset? key = none) : (tables.setOffset changed offset).offset? key = none := by
    rw [offset?_setOffset]
    split
    case isTrue hsame => rw [← hsame, habsent, Option.map_none]
    case isFalse => exact habsent
  cases operation with
  | create created seed =>
    by_cases hkey : key = created
    · exact congrArg some hkey.symm
    · cases h
      exact (hstill ((offset?_create_of_ne hkey seed).trans habsent)).elim
  | handOver source newOwner =>
    by_cases hkey : key = source.withOwner newOwner
    · exact congrArg some hkey.symm
    refine (hstill ?_).elim
    obtain ⟨offset, hoffset, ⟨hnew, rfl⟩ | ⟨there, -, -, rfl⟩⟩ := handOver_eq_ok_iff.mp h
    · rw [offset?_rename hnew, if_neg hkey, habsent, ite_self]
    · rw [merge, offset?_remove, hset _ _ _ (by rwa [offset?_foldl_addMissing]), ite_self]
  | enqueue listed file =>
    obtain ⟨-, ⟨-, rfl⟩ | ⟨rfl, -, -⟩⟩ := enqueue_eq_ok_iff.mp h <;> exact (hstill habsent).elim
  | advance moved start target =>
    obtain ⟨-, current, -, ⟨-, rfl⟩ | ⟨-, -, rfl⟩⟩ := advance_eq_ok_iff.mp h
    · exact (hstill habsent).elim
    · exact (hstill (hset tables moved target.offset habsent)).elim
  | finish finished seq =>
    obtain ⟨-, -, rfl⟩ := finish_eq_ok_iff.mp h
    exact (hstill (hset _ finished 0 habsent)).elim
  | drop dropped =>
    cases h
    refine (hstill ?_).elim
    show (tables.remove dropped).offset? key = none
    rw [offset?_remove, habsent, ite_self]

end QueueTables

namespace QueueStore

variable {database : Database} {key target : QueueKey}

/-! ## Calls and their operations -/

inductive Call
  | create (key : QueueKey) (seed : Option (FileRef × Nat))
  | enqueue (key : QueueKey) (file : FileRef)
  | advance (key : QueueKey) (start : Nat) (target : LogPosition)
  | finish (key : QueueKey) (seq : UInt64)
  /-- The membership is the one that the call finds. -/
  | transfer (membership : Membership) (key : QueueKey) (newOwner : String)
  | drop (key : QueueKey)
  deriving Repr, DecidableEq

/-- The operation on the tables that a call comes to if it is carried out. -/
def Call.operation : Call → QueueTables.Operation
  | .create key seed => .create key seed
  | .enqueue key file => .enqueue key file
  | .advance key start target => .advance key start target
  | .finish key seq => .finish key seq
  | .transfer _ key newOwner => .handOver key newOwner
  | .drop key => .drop key

/-- The database after a call, and what the call announced. -/
structure Effect where
  database : Database
  events : List QueueEvent

def Reply.effect {α : Type} (reply : Reply α) : Effect := ⟨reply.database, reply.events⟩

def serve (database : Database) : Call → Effect
  | .create key seed => (create database key seed).effect
  | .enqueue key file => (enqueue database key file).effect
  | .advance key start target => (advance database key start target).effect
  | .finish key seq => (finish database key seq).effect
  | .transfer membership key newOwner => (transfer database membership key newOwner).1.effect
  | .drop key => (drop database key).effect

/-- One call after the other. -/
def serveAll (database : Database) : List Call → Effect
  | [] => ⟨database, []⟩
  | call :: calls =>
    let first := serve database call
    let rest := serveAll first.database calls
    ⟨rest.database, first.events ++ rest.events⟩

/-- What a call announces if it is carried out. -/
def Call.announced (tables : QueueTables) : Call → List QueueEvent
  | .create key _ => if (tables.offset? key).isSome then [] else [.created key]
  | .transfer _ key newOwner => [.transferred key (key.withOwner newOwner)]
  | .drop key => if (tables.offset? key).isSome then [.dropped key] else []
  | _ => []

/-- A call is carried out, or leaves the database as it was and announces nothing. -/
theorem serve_cases (database : Database) (call : Call) :
    (∃ after, database.queues.perform call.operation = .ok after ∧
      serve database call = ⟨database.withQueues after, call.announced database.queues⟩) ∨
    serve database call = ⟨database, []⟩ := by
  have hquiet (run : QueueTables → Outcome QueueTables) :
      (∃ after, run database.queues = .ok after ∧
        (quietly database run).effect = ⟨database.withQueues after, []⟩) ∨
      (quietly database run).effect = ⟨database, []⟩ := by
    rcases quietly_cases database run with ⟨after, hrun, hreply⟩ | ⟨error, hreply, -⟩
    · exact .inl ⟨after, hrun, by rw [hreply, Reply.effect]⟩
    · exact .inr (by rw [hreply, Reply.effect])
  cases call with
  | create key seed =>
    rw [serve, create_eq]
    split
    case isTrue => exact .inl ⟨_, rfl, rfl⟩
    case isFalse => exact .inr rfl
  | enqueue key file => exact hquiet (·.enqueue key file)
  | advance key start target => exact hquiet (·.advance key start target)
  | finish key seq => exact hquiet (·.finish key seq)
  | transfer membership key newOwner =>
    rcases transfer_cases database membership key newOwner with ⟨after, hover, hreply⟩ | ⟨error, hreply⟩
    · exact .inl ⟨after, hover, congrArg Reply.effect hreply⟩
    · exact .inr (congrArg Reply.effect hreply)
  | drop key =>
    rw [serve, drop_eq]
    split
    case isTrue => exact .inl ⟨_, rfl, rfl⟩
    case isFalse => exact .inr rfl

/-- No call touches the peer table. -/
theorem peers_serve (database : Database) (call : Call) :
    (serve database call).database.peers = database.peers := by
  rcases serve_cases database call with ⟨after, -, hserve⟩ | hserve
  · exact congrArg (·.database.peers) hserve
  · exact congrArg (·.database.peers) hserve

/-- The tables after calls are those after operations. -/
theorem queues_serveAll (database : Database) (calls : List Call) :
    ∃ operations, operations.Sublist (calls.map Call.operation) ∧
      (serveAll database calls).database = database.withQueues (database.queues.run operations) := by
  induction calls generalizing database with
  | nil => exact ⟨[], List.Sublist.refl [], rfl⟩
  | cons call calls ih =>
    obtain ⟨operations, hmade, hafter⟩ := ih (serve database call).database
    show ∃ made, _ ∧ (serveAll (serve database call).database calls).database = _
    rw [hafter]
    rcases serve_cases database call with ⟨after, hperform, hserve⟩ | hserve
    · rw [hserve]
      refine ⟨call.operation :: operations, hmade.cons_cons _, ?_⟩
      have happly : database.queues.apply call.operation = after := by
        rw [QueueTables.apply, hperform]
        rfl
      show _ = database.withQueues ((database.queues.apply call.operation).run operations)
      rw [happly]
      rfl
    · rw [hserve]
      exact ⟨operations, hmade.cons _, rfl⟩

/-! ## What the announcements tell -/

/-- A queue that was not there and is there now was announced. -/
theorem arrival_of_appears {call : Call} (habsent : database.queues.offset? key = none)
    (hthere : ((serve database call).database.queues.offset? key).isSome = true) :
    ∃ event ∈ (serve database call).events, event.arrival? = some key := by
  rcases serve_cases database call with ⟨after, hperform, hserve⟩ | hserve
  · rw [hserve] at hthere ⊢
    have harrival : call.operation.arrival? = some key :=
      QueueTables.arrival_of_appears habsent hperform hthere
    cases call with
    | create created seed =>
      obtain rfl : created = key := Option.some.inj harrival
      refine ⟨.created created, ?_, rfl⟩
      simp [Call.announced, habsent]
    | transfer membership source newOwner =>
      exact ⟨.transferred source (source.withOwner newOwner), List.mem_singleton_self _, harrival⟩
    | enqueue | advance | finish | drop => cases harrival
  · rw [hserve] at hthere
    rw [habsent] at hthere
    cases hthere

theorem serve_drop (database : Database) (key : QueueKey) :
    serve database (.drop key) =
      if database.reachable then
        ⟨database.withQueues (database.queues.remove key),
          if (database.queues.offset? key).isSome then [.dropped key] else []⟩
      else ⟨database, []⟩ := by
  rw [serve, drop_eq]
  split <;> rfl

/-- A queue is announced as dropped if it is there and its drop is carried out. -/
theorem dropped_mem_events_iff {call : Call} :
    .dropped key ∈ (serve database call).events ↔
      call = .drop key ∧ database.reachable = true ∧ (database.queues.offset? key).isSome = true := by
  have hdrop : .dropped key ∈ (serve database (.drop key)).events ↔
      database.reachable = true ∧ (database.queues.offset? key).isSome = true := by
    rw [serve_drop]
    cases database.reachable <;> cases (database.queues.offset? key).isSome <;> simp
  constructor
  · intro hmem
    have hcall : call = .drop key := by
      rcases serve_cases database call with ⟨after, -, hserve⟩ | hserve
      · rw [hserve] at hmem
        cases call with
        | drop dropped =>
          simp only [Call.announced] at hmem
          split at hmem
          · rw [QueueEvent.dropped.inj (List.mem_singleton.mp hmem)]
          · cases hmem
        | create created seed =>
          simp only [Call.announced] at hmem
          split at hmem
          · cases hmem
          · cases List.mem_singleton.mp hmem
        | transfer => cases List.mem_singleton.mp hmem
        | enqueue | advance | finish => cases hmem
      · rw [hserve] at hmem
        cases hmem
    subst hcall
    exact ⟨rfl, hdrop.mp hmem⟩
  · rintro ⟨rfl, h⟩
    exact hdrop.mpr h

/-- A queue that was announced as gone is not found under the key it had. -/
theorem offset?_of_departure {call : Call} {event : QueueEvent}
    (hevent : event ∈ (serve database call).events) (hgone : event.departure? = some key) :
    (serve database call).database.queues.offset? key = none := by
  rcases serve_cases database call with ⟨after, hperform, hserve⟩ | hserve
  · rw [hserve] at hevent ⊢
    cases call with
    | create created seed =>
      simp only [Call.announced] at hevent
      split at hevent
      · cases hevent
      · obtain rfl := List.mem_singleton.mp hevent
        cases hgone
    | transfer membership source newOwner =>
      obtain rfl := List.mem_singleton.mp hevent
      obtain rfl : source = key := Option.some.inj hgone
      exact QueueTables.offset?_of_handOver hperform
    | drop dropped =>
      simp only [Call.announced] at hevent
      split at hevent
      · obtain rfl := List.mem_singleton.mp hevent
        obtain rfl : dropped = key := Option.some.inj hgone
        obtain rfl : database.queues.remove dropped = after := Except.ok.inj hperform
        show (database.queues.remove dropped).offset? dropped = none
        rw [QueueTables.offset?_remove, if_pos rfl]
      · cases hevent
    | enqueue | advance | finish => cases hevent
  · rw [hserve] at hevent
    cases hevent

end QueueStore

end LogShipping
