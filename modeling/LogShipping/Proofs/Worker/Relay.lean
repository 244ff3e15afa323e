import LogShipping.Proofs.Log.Chains
import LogShipping.Proofs.Worker.Delivery

/-!
# A queue on its way from owner to owner

A relay follows one queue through the hands of its workers: those of one owner, one after the other, and
those of the next owner after a hand-over. What a worker has had in hand may reach the peer at any later
time, and more than once, even when the worker is gone. The files may hold anything, and may be written on
at any time. Others leave the queue's position alone and list files behind those that are there. Where the
new owner has a queue of the same name already, the two become one, and that one goes on where the queue
stood.
-/

namespace LogShipping

/-- A place in the log of a node. -/
structure LogPlace where
  file : FileRef
  offset : Nat
  deriving DecidableEq

/-- The first place comes before the second in the log. -/
def LogPlace.Before (x y : LogPlace) : Prop :=
  QueueTables.rank x.file.seq < QueueTables.rank y.file.seq ∨ (x.file = y.file ∧ x.offset < y.offset)

/-- The place lies in the stretch that was read. -/
def Passage.covers (passage : Passage) (place : LogPlace) : Bool :=
  decide (passage.file = place.file ∧ passage.start ≤ place.offset ∧ place.offset < passage.stop)

theorem Passage.covers_iff {passage : Passage} {place : LogPlace} :
    passage.covers place = true ↔
      passage.file = place.file ∧ passage.start ≤ place.offset ∧ place.offset < passage.stop :=
  decide_eq_true_iff

namespace Worker

open Log QueueTables

/-! ## What others do -/

/-- Between two directories a file is written at its end only, and stays missing if it is. -/
def Continues (before after : Directory) (file : FileRef) : Prop :=
  match content? before file with
  | none => content? after file = none
  | some content => ∃ more, content? after file = some (content ++ more)

theorem Continues.missing {before after : Directory} {file : FileRef}
    (h : Continues before after file) (hmissing : content? before file = none) :
    content? after file = none := by
  unfold Continues at h
  rw [hmissing] at h
  exact h

theorem Continues.content {before after : Directory} {file : FileRef} {content : Bytes}
    (h : Continues before after file) (hcontent : content? before file = some content) :
    ∃ more, content? after file = some (content ++ more) := by
  unfold Continues at h
  rw [hcontent] at h
  exact h

theorem Stays.continues {before after : Directory} {file : FileRef} (h : Stays before after file) :
    Continues before after file := by
  unfold Stays at h
  unfold Continues
  rw [h]
  split
  case h_1 hmissing => exact hmissing
  case h_2 content hcontent => exact ⟨[], by rw [hcontent, List.append_nil]⟩

theorem Continues.trans {before middle after : Directory} {file : FileRef}
    (h : Continues before middle file) (hlater : Continues middle after file) :
    Continues before after file := by
  unfold Continues
  split
  case h_1 hmissing => exact hlater.missing (h.missing hmissing)
  case h_2 content hcontent =>
    obtain ⟨more, hmore⟩ := h.content hcontent
    obtain ⟨rest, hrest⟩ := hlater.content hmore
    exact ⟨more ++ rest, by rw [hrest, List.append_assoc]⟩

/-- What others may do to a queue, some of whose files were taken off already: it lists more files at its
end, and stands where it stood. It may have a new name. -/
structure Spares (finished : List LogPlace) (before after : Scene) : Prop where
  schema : after.schema = before.schema
  wellFormed : after.database.queues.WellFormed
  offset : after.database.queues.offset? after.key = before.database.queues.offset? before.key
  listed : ∃ added, after.listed = before.listed ++ added
  /-- No file is listed that comes before one that was taken off. -/
  later : ∀ done ∈ finished, ∀ file ∈ after.listed, rank done.file.seq < rank file.seq
  written : ∀ file, file ∈ finished.map (·.file) ∨ before.listed.head? = some file →
    Continues before.directory after.directory file

theorem Spares.position {finished : List LogPlace} {before after : Scene} (h : Spares finished before after)
    {file : FileRef} {offset : Nat} (hposition : before.position? = some (file, offset)) :
    after.position? = some (file, offset) := by
  obtain ⟨hhead, hoffset⟩ := Scene.position?_eq_some_iff.mp hposition
  obtain ⟨added, hnow⟩ := h.listed
  rw [Scene.position?_eq_some_iff, hnow, h.offset, List.head?_append, hhead, Option.some_or]
  exact ⟨rfl, hoffset⟩

/-! ## Relays -/

/-- The passage in hand, if the peer's answer to it is one that acknowledges it. -/
def Turn.delivers? (turn : Turn) : Option Passage :=
  turn.acknowledges?.bind fun _ ↦ turn.worker.phase.passage?

/-- What a step hands to the sink is the passage in hand. -/
theorem Turn.passage?_of_sends? {turn : Turn} {shipment : Shipment} (h : turn.sends? = some shipment) :
    ∃ passage, turn.worker.phase.passage? = some passage ∧ passage.shipment = shipment := by
  unfold sends? at h
  split at h
  case h_2 => cases h
  case h_1 passage hphase =>
    split at h
    case isTrue => cases h
    case isFalse =>
      refine ⟨passage, ?_, Option.some.inj h⟩
      rw [hphase]
      rfl

/-- The file that is taken off in the next step, with the offset that the queue has come to in it. -/
def Turn.leaves? (turn : Turn) : Option LogPlace :=
  turn.finishes?.bind fun file ↦
    (turn.scene.database.queues.offset? turn.scene.key).map fun offset ↦ ⟨file, offset⟩

structure Relay where
  turn : Turn
  /-- The passages that workers have had in hand. Each may reach the peer from then on. -/
  underway : List Passage
  /-- The passages as they reached the peer. -/
  arrived : List Passage
  acknowledged : List Passage
  /-- Where files were taken off the queue. -/
  finished : List LogPlace

namespace Relay

/-- Nothing was done yet. -/
def opening (turn : Turn) : Relay := ⟨turn, [], [], [], []⟩

def scene (relay : Relay) : Scene := relay.turn.scene

/-- The files that were taken off. -/
def done (relay : Relay) : List FileRef := relay.finished.map (·.file)

/-- The files of the queue: those taken off, and those still listed. -/
def files (relay : Relay) : List FileRef := relay.done ++ relay.scene.listed

/-- The passage in hand is underway. -/
def hold (relay : Relay) : Relay :=
  { relay with underway := relay.underway ++ relay.turn.worker.phase.passage?.toList }

def arrive (relay : Relay) (passage : Passage) : Relay :=
  { relay with arrived := relay.arrived ++ [passage] }

/-- The peer acknowledges a passage, which has reached it by then. -/
def acknowledge (relay : Relay) (passage : Passage) : Relay :=
  { relay.arrive passage with acknowledged := relay.acknowledged ++ [passage] }

/-- What the worker learns of the peer in its next step. -/
def hear (relay : Relay) : Relay :=
  match relay.turn.delivers? with
  | none => relay
  | some passage => relay.acknowledge passage

/-- The worker makes one step. -/
def work (relay : Relay) : Relay :=
  { relay.hold.hear with
    turn := step relay.turn
    finished := relay.finished ++ relay.turn.leaves?.toList }

/-- Others, or another worker. -/
def setTurn (relay : Relay) (turn : Turn) : Relay := { relay with turn }

/-- One step of a run. -/
inductive Moves : Relay → Relay → Prop
  | work (relay : Relay) : Moves relay relay.work
  /-- Something that was underway reaches the peer, for the first time or once more. -/
  | arrive (relay : Relay) (passage : Passage) (h : passage ∈ relay.underway) :
      Moves relay (relay.arrive passage)
  /-- The worker is told to stop. -/
  | dismiss (relay : Relay) :
      Moves relay (relay.setTurn
        { relay.turn with worker := { relay.turn.worker with dismissed := true } })
  /-- The worker is told that there may be something new. -/
  | wake (relay : Relay) :
      Moves relay (relay.setTurn { relay.turn with worker := relay.turn.worker.wake })
  /-- The worker is gone, wherever it was, and a new one takes its place. -/
  | respawn (relay : Relay) (facilities : Facilities) (sink : Sink) (circuit : Nat) (gate : Gate) :
      Moves relay (relay.hold.setTurn
        ⟨relay.turn.world, facilities, .create relay.turn.worker.key sink circuit gate⟩)
  /-- The queue is handed over, and a worker of the new owner goes on. A queue that the new owner has under
  the same name already is merged with it such that it goes on where it stood. -/
  | handOver (relay : Relay) (owner : String) (queues : QueueTables) (facilities : Facilities)
      (sink : Sink) (circuit : Nat) (gate : Gate)
      (hqueues : relay.turn.world.database.queues.handOver relay.turn.worker.key owner = .ok queues)
      (hmerged : relay.turn.world.database.queues.offset? (relay.turn.worker.key.withOwner owner) ≠ none →
        Spares relay.finished relay.scene (Turn.scene ⟨relay.turn.world.withQueues queues, facilities,
          .create (relay.turn.worker.key.withOwner owner) sink circuit gate⟩)) :
      Moves relay (relay.hold.setTurn
        ⟨relay.turn.world.withQueues queues, facilities,
          .create (relay.turn.worker.key.withOwner owner) sink circuit gate⟩)
  /-- Others do something. -/
  | elsewhere (relay : Relay) (world : World) (facilities : Facilities)
      (h : Spares relay.finished relay.scene (Turn.scene ⟨world, facilities, relay.turn.worker⟩)) :
      Moves relay (relay.setTurn ⟨world, facilities, relay.turn.worker⟩)

/-- A run leads from one relay to another. -/
def Leads : Relay → Relay → Prop := Relation.ReflTransGen Moves

theorem leads_repeat (relay : Relay) (steps : Nat) :
    relay.Leads (Nat.repeat work steps relay) := by
  induction steps with
  | zero => exact .refl
  | succ steps ih => exact .tail ih (.work _)

end Relay

end Worker
end LogShipping
