import LogShipping.Cluster.Basic
import LogShipping.Proofs.Worker.RelaySteps

/-!
# The order in which records arrive

A queue brings the records of a log to the peer in the order of the log, whoever's hands it goes through.
What others bring is another matter. A node that comes back while its old queue is still in the hands of
another node begins a queue of its own behind it, and the two queues do not wait for each other.
-/

namespace LogShipping.Worker

open Log QueueTables

namespace Relay

/-- The records of a queue have come to the peer for the first time in the order of the log. -/
structure InLogOrder (queue : Queue) (schema : Schema) (relay : Relay) : Prop where
  /-- What came to the peer was read from the files of the queue, a stretch of records at a time. -/
  drawn : ∀ passage ∈ relay.arrived,
    passage.file ∈ relay.files ∧ Drawn queue schema relay.scene.directory passage
  /-- With the passage that covers a record comes what the filter leaves of it. -/
  brought : ∀ passage ∈ relay.arrived, ∀ place entry kept, passage.covers place = true →
    Recorded queue relay.scene.directory place entry → entry.filter schema = some kept →
      kept ∈ passage.shipment.entries
  /-- No record comes before an earlier one, and none before an earlier one that does not come at all. -/
  order : ∀ x y, relay.Due queue schema x → ¬ relay.Missed x → x.Before y →
    relay.firstArrival x ≤ relay.firstArrival y
  /-- What was written behind the end that a worker found before it took the file off does not come. -/
  missed : ∀ x, relay.Missed x → ∀ passage ∈ relay.arrived, passage.covers x = false

theorem Orderly.inLogOrder {queue : Queue} {schema : Schema} {original : Directory} {relay : Relay}
    (h : Orderly queue schema original relay) : InLogOrder queue schema relay where
  drawn passage hpassage := by
    obtain ⟨hdrawn, _, hreached, -⟩ := h.drawn passage (h.arrived passage hpassage)
    exact ⟨List.mem_append.mpr (hreached.file_mem.imp_right List.mem_of_head?), hdrawn⟩
  brought passage hpassage _ _ _ hcovers hrecorded hkept :=
    (h.drawn passage (h.arrived passage hpassage)).1.mem_entries hcovers hrecorded hkept
  order := h.inOrder
  missed _ hmissed passage hpassage := h.covers_of_missed hmissed (h.arrived passage hpassage)

/-- In every run on a queue, its records come to the peer for the first time in the order of the log. -/
theorem inLogOrder_of_leads {world : World} {facilities : Facilities} {key : QueueKey} {sink : Sink}
    {circuit : Nat} {gate : Gate} {queue : Queue} {relay : Relay}
    (hreach : world.database.queues.Reachable) (hqueue : world.database.queues.get? key = some queue)
    (hleads : (Relay.opening ⟨world, facilities, .create key sink circuit gate⟩).Leads relay) :
    InLogOrder queue world.schema relay := by
  have hopening : Orderly queue world.schema world.directory
      (.opening ⟨world, facilities, .create key sink circuit gate⟩) := by
    refine .opening ⟨world, facilities, .create key sink circuit gate⟩ ?_ hreach hqueue
    trivial
  exact (hopening.leads hleads).inLogOrder

end Relay

namespace Sample

def later : Entry := ⟨"t", 2, 0, [⟨[], "f", [], 0, .put, []⟩]⟩

/-- The second entry as it is stored, given as an array. -/
def laterRecord : Bytes :=
  [34, 0, 0, 0, 21, 232, 242, 229, 91, 34, 116, 34, 44, 50, 44, 48, 44, 91, 91, 91, 93, 44, 34, 102,
    34, 44, 91, 93, 44, 48, 44, 34, 112, 117, 116, 34, 44, 91, 93, 93, 93, 93]

/-- Two records, one behind the other. -/
theorem found_both :
    Found (record ++ laterRecord) 0 0 entry ∧ Found (record ++ laterRecord) 0 42 later := by
  have hframe : Frame.decode ((record ++ laterRecord).drop 0) = .complete (record.drop 8) 42 := by
    decide +kernel
  have hlater : Frame.decode ((record ++ laterRecord).drop 42) = .complete (laterRecord.drop 8) 42 := by
    decide +kernel
  have hfirst : Chain (record ++ laterRecord) 0 42 [entry] := .singleton hframe rfl
  have hsecond : Chain (record ++ laterRecord) 42 84 [later] := .singleton hlater rfl
  exact ⟨⟨[], 42, .nil 0, hfirst⟩, [entry], 84, hfirst, hsecond⟩

/-- Node b has the old queue of node a, which has a new one behind the first record. -/
def divided : World :=
  { world with
    database := { Database.empty with
      queues := .run .empty [
        .create key (some (⟨1, "w"⟩, 0)), .create (.own "a" "p") (some (⟨1, "w"⟩, 42))] }
    directory := ⟨[("w", record ++ laterRecord)]⟩ }

/-- One record at a time is shipped. -/
def slow : Facilities :=
  { facilities with settings := { SourceSettings.standard with countCapacity := 1 } }

/-- Node b has shipped the first record. -/
def halfway : Relay :=
  Nat.repeat Relay.work 9 (.opening ⟨divided, slow, .create key (.remote "p") 0 ⟨"p", 0⟩⟩)

/-- The two queues are one. -/
def reunited : QueueTables := .run .empty [.create (.own "a" "p") (some (⟨1, "w"⟩, 42))]

/-- Node a goes on. -/
def takenBack : Relay :=
  Nat.repeat Relay.work 9 (halfway.hold.setTurn ⟨halfway.turn.world.withQueues reunited, slow,
    .create (halfway.turn.worker.key.withOwner "a") (.remote "p") 0 ⟨"p", 0⟩⟩)

end Sample

namespace Relay

/-- The two queues of a log are merged where they meet, and the records arrive in order. -/
theorem inLogOrder_takenBack :
    Sample.takenBack.arrived.map (·.shipment.entries) = [[Sample.entry], [Sample.later]] ∧
      InLogOrder ⟨Sample.key, [⟨1, "w"⟩], 0⟩ (.ofNames ["f"]) Sample.takenBack := by
  refine ⟨by decide +kernel, ?_⟩
  have hqueues : Sample.halfway.turn.world.database.queues.handOver
      Sample.halfway.turn.worker.key "a" = .ok Sample.reunited :=
    handOver_eq_ok_iff.mpr ⟨42, by decide +kernel, .inr ⟨42, by decide +kernel, by decide +kernel,
      by decide +kernel⟩⟩
  have hmerged : Spares Sample.halfway.finished Sample.halfway.scene
      (Turn.scene ⟨Sample.halfway.turn.world.withQueues Sample.reunited, Sample.slow,
        .create (Sample.halfway.turn.worker.key.withOwner "a") (.remote "p") 0 ⟨"p", 0⟩⟩) := by
    constructor
    case schema => rfl
    case wellFormed => exact Reachable.wellFormed ⟨_, rfl⟩
    case offset => decide +kernel
    case listed => exact ⟨[], by decide +kernel⟩
    case later =>
      have hnone : Sample.halfway.finished = [] := by decide +kernel
      rw [hnone]
      nofun
    case written => exact fun _ _ ↦ Stays.continues rfl
  have hgoes := Moves.handOver Sample.halfway "a" Sample.reunited Sample.slow (.remote "p") 0 ⟨"p", 0⟩
    hqueues fun _ ↦ hmerged
  have hleads : (opening ⟨Sample.divided, Sample.slow,
      .create Sample.key (.remote "p") 0 ⟨"p", 0⟩⟩).Leads Sample.takenBack :=
    ((leads_repeat _ 9).tail hgoes).trans (leads_repeat _ 9)
  exact inLogOrder_of_leads ⟨_, rfl⟩ (by decide +kernel) hleads

end Relay

namespace Sample

/-- Node a has written a record and died. -/
def bereft : World :=
  { world with
    database := { Database.empty with queues := .run .empty [.create (.own "a" "p") (some (⟨1, "w"⟩, 0))] }
    membership := ⟨["b"], []⟩
    storages := [("a", { Storage.create 2 with active := some (⟨1, "w"⟩, 42) })]
    remotes := [{ Remote.create "p" with script := [.hold] }] }

def workerOf (key : QueueKey) : Worker := .create key (.remote "p") 0 ⟨"p", 0⟩

/-- Node b has taken the queue over, and its call to the peer is open. -/
def waiting : Turn := Nat.repeat step 7 ⟨bereft.handleNodeDeath "a", facilities, workerOf key⟩

/-- Node a has come back, with a queue behind the first record, and has written another one. -/
def rejoined : World :=
  let world := ((waiting.world.join "a").createQueue (.own "a" "p") (waiting.world.activeLog "a")).2
  ((Cluster.append? ⟨world, []⟩ "a" laterRecord true).map (·.2.world)).getD world

/-- Node a has shipped it. -/
def ahead : Turn := Nat.repeat step 9 ⟨rejoined, { facilities with node := "a" }, workerOf (.own "a" "p")⟩

/-- The peer has answered node b. -/
def behind : Turn :=
  Nat.repeat step 5
    ⟨(Cluster.release ⟨ahead.world, []⟩ "p" .accept).world, waiting.facilities, waiting.worker⟩

end Sample

/-- A node whose old queue is still underway elsewhere comes back, and what it writes then overtakes what
it wrote before. -/
theorem overtaken_after_rejoining :
    Sample.rejoined.database.queues.get? Sample.key = some ⟨Sample.key, [⟨1, "w"⟩], 0⟩ ∧
      Sample.rejoined.database.queues.get? (.own "a" "p") = some ⟨.own "a" "p", [⟨1, "w"⟩], 42⟩ ∧
      (∃ content, content? Sample.behind.world.directory ⟨1, "w"⟩ = some content ∧
        Found content 0 0 Sample.entry ∧ Found content 0 42 Sample.later) ∧
      (Sample.behind.world.remote "p").accepted =
        [⟨"a", "p", [Sample.later]⟩, ⟨"a", "p", [Sample.entry]⟩] := by
  refine ⟨by decide +kernel, by decide +kernel, ?_, by decide +kernel⟩
  exact ⟨Sample.record ++ Sample.laterRecord, by decide +kernel, Sample.found_both⟩

end LogShipping.Worker
