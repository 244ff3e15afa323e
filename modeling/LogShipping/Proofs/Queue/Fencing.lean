import LogShipping.Proofs.Queue.Calls

/-!
# Fencing of former owners

A node whose queue was handed to another, or dropped, may go on as if it still owned it. Whatever it
asks of the queue store under the old key is refused as stale and changes nothing, and this stays so
through any later calls, merges into and out of neighbouring keys among them. Only a queue that is
created under the very key or transferred to it ends the fence, and that is announced.
-/

namespace LogShipping.QueueStore

variable {database : Database} {key : QueueKey}

/-- Whoever names the queue by this key is turned away. -/
structure Fenced (database : Database) (key : QueueKey) : Prop where
  get : database.query (·.get? key) = .ok none
  enqueue : ∀ file,
    enqueue database key file = ⟨.error (.staleOwnership key.text key.owner), database, []⟩
  advance : ∀ start target,
    advance database key start target = ⟨.error (.staleOwnership key.text key.owner), database, []⟩
  finish : ∀ seq,
    finish database key seq = ⟨.error (.staleOwnership key.text key.owner), database, []⟩
  transfer : ∀ membership newOwner, (membership.isAlive key.owner).1 = false →
    (transfer database membership key newOwner).1 =
      ⟨.error (.staleOwnership key.text newOwner), database, []⟩
  /-- The owner may also be alive. -/
  still : ∀ membership newOwner, ∃ error,
    (QueueStore.transfer database membership key newOwner).1 = ⟨.error error, database, []⟩

/-- An operation that the tables refuse is answered with their error. -/
theorem quietly_eq_error (hup : database.reachable = true) {run : QueueTables → Outcome QueueTables}
    {error : Error} (hrefused : run database.queues = .error error) :
    quietly database run = ⟨.error error, database, []⟩ := by
  rcases quietly_cases database run with ⟨after, hdone, -⟩ | ⟨other, hreply, hother⟩
  · rw [hrefused] at hdone
    cases hdone
  · rw [hrefused] at hother
    obtain rfl : error = other := Except.error.inj (hother hup)
    exact hreply

/-- A key that no queue stands under is fenced. -/
theorem fenced_of_absent (hup : database.reachable = true) (habsent : database.queues.offset? key = none) :
    Fenced database key where
  get := by
    rw [Database.query, if_pos hup, QueueTables.get?, habsent]
    rfl
  enqueue file := quietly_eq_error hup (by rw [QueueTables.enqueue, habsent]; rfl)
  advance start target := quietly_eq_error hup (by rw [QueueTables.advance, habsent]; rfl)
  finish seq := quietly_eq_error hup (by rw [QueueTables.finish, habsent]; rfl)
  transfer membership newOwner hdead := by
    have hrefused : database.queues.handOver key newOwner = .error (.staleOwnership key.text newOwner) := by
      rw [QueueTables.handOver, habsent]
    unfold QueueStore.transfer Database.transact
    simp [hdead, hup, hrefused, Except.map]
  still membership newOwner := by
    rcases transfer_cases database membership key newOwner with ⟨after, hover, -⟩ | herror
    · obtain ⟨offset, hoffset, -⟩ := QueueTables.handOver_eq_ok_iff.mp hover
      rw [habsent] at hoffset
      cases hoffset
    · exact herror

/-- No call makes the database unreachable. -/
theorem reachable_serve (database : Database) (call : Call) :
    (serve database call).database.reachable = database.reachable := by
  rcases serve_cases database call with ⟨after, -, hserve⟩ | hserve
  · exact congrArg (·.database.reachable) hserve
  · exact congrArg (·.database.reachable) hserve

theorem reachable_serveAll (database : Database) (calls : List Call) :
    (serveAll database calls).database.reachable = database.reachable := by
  obtain ⟨operations, -, hafter⟩ := queues_serveAll database calls
  rw [hafter]
  rfl

/-- A queue that is not there stays away as long as none is announced under its key. -/
theorem offset?_serveAll_eq_none (calls : List Call) (habsent : database.queues.offset? key = none)
    (hnone : ∀ event ∈ (serveAll database calls).events, event.arrival? ≠ some key) :
    (serveAll database calls).database.queues.offset? key = none := by
  induction calls generalizing database with
  | nil => exact habsent
  | cons call calls ih =>
    have hfirst : (serve database call).database.queues.offset? key = none := by
      rw [← Option.not_isSome_iff_eq_none]
      intro hthere
      obtain ⟨event, hevent, harrival⟩ := arrival_of_appears habsent hthere
      exact hnone event (List.mem_append_left _ hevent) harrival
    exact ih hfirst fun event hevent ↦ hnone event (List.mem_append_right _ hevent)

/-- From the moment a queue is announced as transferred or dropped until one is announced under its key
again, the key is fenced. -/
theorem fenced_of_departure (hup : database.reachable = true) {call : Call} {event : QueueEvent}
    (hevent : event ∈ (serve database call).events) (hgone : event.departure? = some key)
    {later : List Call}
    (hnone : ∀ event ∈ (serveAll (serve database call).database later).events,
      event.arrival? ≠ some key) :
    Fenced (serveAll (serve database call).database later).database key := by
  apply fenced_of_absent
  · rw [reachable_serveAll, reachable_serve, hup]
  · exact offset?_serveAll_eq_none later (offset?_of_departure hevent hgone) hnone

/-- The queue of a dead origin, and the one that "rs-2" recovered from it. -/
def recovered : Database :=
  (serveAll .empty
    [.create (.own "rs-1" "2") (some (⟨4, "rs-1.0000000004.wal"⟩, 200)),
      .create ⟨"rs-2", "2", "rs-1"⟩ (some (⟨4, "rs-1.0000000004.wal"⟩, 50))]).database

/-- The recovered queue goes back to its origin. -/
def giveBack : Call := .transfer .empty ⟨"rs-2", "2", "rs-1"⟩ "rs-1"

/-- "rs-2" goes on for a while, and the queue goes from "rs-1" to "rs-3". -/
def goOn : List Call :=
  [.advance ⟨"rs-2", "2", "rs-1"⟩ 50 ⟨4, 60⟩, .enqueue (.own "rs-1" "2") ⟨5, "rs-1.0000000005.wal"⟩,
    .transfer .empty ⟨"rs-2", "2", "rs-1"⟩ "rs-4", .transfer .empty (.own "rs-1" "2") "rs-3",
    .drop ⟨"rs-2", "2", "rs-1"⟩]

/-- The former owner of the recovered queue is turned away, also after the queue went on to a third. -/
theorem fenced_after_giving_back :
    recovered.reachable = true ∧
      .transferred ⟨"rs-2", "2", "rs-1"⟩ (.own "rs-1" "2") ∈ (serve recovered giveBack).events ∧
      (serveAll (serve recovered giveBack).database goOn).events =
        [.transferred (.own "rs-1" "2") ⟨"rs-3", "2", "rs-1"⟩] ∧
      Fenced (serveAll (serve recovered giveBack).database goOn).database ⟨"rs-2", "2", "rs-1"⟩ := by
  have hgone : .transferred ⟨"rs-2", "2", "rs-1"⟩ (.own "rs-1" "2") ∈ (serve recovered giveBack).events := by
    decide +kernel
  have hlater : (serveAll (serve recovered giveBack).database goOn).events =
      [.transferred (.own "rs-1" "2") ⟨"rs-3", "2", "rs-1"⟩] := by
    decide +kernel
  refine ⟨rfl, hgone, hlater, fenced_of_departure rfl hgone rfl ?_⟩
  rw [hlater]
  decide

end LogShipping.QueueStore
