import LogShipping.Proofs.Queue.Position
import LogShipping.Proofs.Worker.Transitions
import Mathlib.Logic.Relation

/-!
# Runs of the workers of one queue

A journal goes with the workers of one queue, one after the other, and records what they do: the
shipments they hand to the sink, those that are acknowledged, those whose end becomes the queue's
position, and the files they take off the queue. Between any two steps a worker may be told to stop, be
woken, or vanish and be replaced, and everything around it may change as long as nobody else moves the
queue's position. Files may be listed at the end of a queue, and the last file of a node's own queue may
grow by whole records; the files of a recovered queue, and those behind which another is listed, are
closed.
-/

namespace LogShipping.Worker

open Log

/-! ## The queue in a scene -/

namespace Scene

def queue? (scene : Scene) : Option Queue := scene.database.queues.get? scene.key

/-- The files listed on the queue, none if there is no queue. -/
def listed (scene : Scene) : List FileRef := scene.database.queues.filesOf scene.key

/-- The first file of the queue, and the offset in it. -/
def position? (scene : Scene) : Option (FileRef × Nat) :=
  scene.queue?.bind fun queue ↦ queue.head?.map (·, queue.offset)

/-- A listed file that does not grow any more. -/
def Complete (scene : Scene) (file : FileRef) : Prop :=
  file ∈ scene.listed ∧ (scene.key.isRecovered = true ∨ file ∈ scene.listed.dropLast)

end Scene

/-- The files of a queue consist of whole records, the first one from the queue's offset on. -/
def Whole (directory : Directory) (files : List FileRef) (offset : Nat) : Prop :=
  (∀ head, files.head? = some head → Legible directory head offset) ∧
    ∀ file ∈ files.tail, Legible directory file 0

/-- What others may do to the scene, with some files already taken off the queue. They list files at its
end, and write to the last file of a node's own queue. -/
structure Elsewhere (finished : List FileRef) (before after : Scene) : Prop where
  key : after.key = before.key
  schema : after.schema = before.schema
  wellFormed : after.database.queues.WellFormed
  offset : after.database.queues.offset? before.key = before.database.queues.offset? before.key
  listed : ∃ added, after.database.queues.filesOf before.key = before.listed ++ added ∧
    (before.key.isRecovered = true → added = []) ∧ ∀ file ∈ added, Legible after.directory file 0
  closed : ∀ file, file ∈ finished ∨ before.Complete file → Stays before.directory after.directory file
  grown : ∀ file ∈ before.listed, Grows before.directory after.directory file

namespace Elsewhere

variable {finished : List FileRef} {before after : Scene}

theorem listed_append (h : Elsewhere finished before after) :
    ∃ added, after.listed = before.listed ++ added ∧
      (before.key.isRecovered = true → added = []) ∧ ∀ file ∈ added, Legible after.directory file 0 := by
  obtain ⟨added, hlisted, hadded⟩ := h.listed
  refine ⟨added, ?_, hadded⟩
  rw [Scene.listed, h.key, hlisted]

theorem offset_eq (h : Elsewhere finished before after) :
    after.database.queues.offset? after.key = before.database.queues.offset? before.key := by
  rw [h.key, h.offset]

end Elsewhere

/-! ## The entries that were passed -/

/-- From an offset in the first of some files the queue has passed these entries: it has taken off the
given files, and stands at the given position now. -/
inductive Passed (directory : Directory) :
    (start : Nat) → (finished : List FileRef) → Option (FileRef × Nat) → List Entry → Prop
  | nothing : Passed directory 0 [] none []
  | within {start stop : Nat} {file : FileRef} {entries : List Entry} :
      Holds directory file start stop entries → Passed directory start [] (some (file, stop)) entries
  | across {start stop : Nat} {file : FileRef} {finished : List FileRef}
      {position : Option (FileRef × Nat)} {entries rest : List Entry} :
      Holds directory file start stop entries → EndsAt directory file stop →
      Passed directory 0 finished position rest →
      Passed directory start (file :: finished) position (entries ++ rest)

namespace Passed

variable {directory after : Directory} {start offset stop : Nat} {finished : List FileRef}
  {file : FileRef} {position : Option (FileRef × Nat)} {entries more : List Entry}

/-- The position moves on within a file. -/
theorem advance (h : Passed directory start finished (some (file, offset)) entries)
    (hmore : Holds directory file offset stop more) :
    Passed directory start finished (some (file, stop)) (entries ++ more) := by
  generalize hposition : some (file, offset) = position at h
  induction h with
  | nothing => cases hposition
  | within hholds =>
    cases hposition
    exact .within (hholds.append hmore)
  | across hholds hends _ ih =>
    rw [List.append_assoc]
    exact .across hholds hends (ih hposition)

/-- A file that was read to its end is taken off. -/
theorem finish (h : Passed directory start finished (some (file, offset)) entries)
    (hends : EndsAt directory file offset) :
    Passed directory start (finished ++ [file]) none entries := by
  generalize hposition : some (file, offset) = position at h
  induction h with
  | nothing => cases hposition
  | within hholds =>
    cases hposition
    have hpassed := across hholds hends .nothing
    rw [List.append_nil] at hpassed
    exact hpassed
  | across hholds hdone _ ih => exact .across hholds hdone (ih hposition)

/-- The next file is begun. -/
theorem enter (h : Passed directory start finished none entries) (hlegible : Legible directory file 0) :
    Passed directory start finished (some (file, 0)) entries := by
  generalize hposition : (none : Option (FileRef × Nat)) = position at h
  induction h with
  | nothing => exact .within hlegible.holds_nil
  | within _ => cases hposition
  | across hholds hdone _ ih => exact .across hholds hdone (ih hposition)

/-- Passed entries stay where files that were taken off stay, and the first one listed only grows. -/
theorem transport (h : Passed directory start finished position entries)
    (hclosed : ∀ done ∈ finished, Stays directory after done)
    (hgrown : ∀ head offset, position = some (head, offset) → Grows directory after head) :
    Passed after start finished position entries := by
  induction h with
  | nothing => exact .nothing
  | within hholds => exact .within ((hgrown _ _ rfl).holds hholds)
  | @across start stop done finished position entries rest hholds hdone _ ih =>
    have hstays : content? after done = content? directory done := hclosed done List.mem_cons_self
    have hholds' : Holds after done start stop entries := by
      rw [Holds, hstays]
      exact hholds
    have hdone' : EndsAt after done stop := by
      rw [EndsAt, hstays]
      exact hdone
    exact .across hholds' hdone'
      (ih (fun file hmem ↦ hclosed file (List.mem_cons_of_mem _ hmem)) hgrown)

end Passed

/-! ## Journals -/

structure Journal where
  turn : Turn
  /-- The shipments that were handed to the sink. -/
  sent : List Shipment
  /-- The shipments that the peer acknowledged. -/
  acknowledged : List Shipment
  /-- The shipments whose end became the queue's position. -/
  stored : List Shipment
  /-- The files that were taken off the queue. -/
  finished : List FileRef

namespace Journal

/-- Nothing was done yet. -/
def opening (turn : Turn) : Journal := ⟨turn, [], [], [], []⟩

def scene (journal : Journal) : Scene := journal.turn.scene

/-- The worker makes one step. -/
def work (journal : Journal) : Journal where
  turn := step journal.turn
  sent := journal.sent ++ journal.turn.sends?.toList
  acknowledged := journal.acknowledged ++ journal.turn.acknowledges?.toList
  stored := journal.stored ++ journal.turn.stores?.toList
  finished := journal.finished ++ journal.turn.finishes?.toList

def setTurn (journal : Journal) (turn : Turn) : Journal := { journal with turn }

/-- One step of a run. -/
inductive Moves : Journal → Journal → Prop
  | work (journal : Journal) : Moves journal journal.work
  /-- The worker is told to stop. -/
  | dismiss (journal : Journal) :
      Moves journal (journal.setTurn
        { journal.turn with worker := { journal.turn.worker with dismissed := true } })
  /-- The worker is told that there may be something new. -/
  | wake (journal : Journal) :
      Moves journal (journal.setTurn { journal.turn with worker := journal.turn.worker.wake })
  /-- The worker is gone, wherever it was, and a new one takes its place. -/
  | respawn (journal : Journal) (facilities : Facilities) (sink : Sink) (circuit : Nat) (gate : Gate) :
      Moves journal (journal.setTurn
        ⟨journal.turn.world, facilities, .create journal.turn.worker.key sink circuit gate⟩)
  /-- Others do something. -/
  | elsewhere (journal : Journal) (world : World) (facilities : Facilities)
      (h : Elsewhere journal.finished journal.scene
        (Turn.scene ⟨world, facilities, journal.turn.worker⟩)) :
      Moves journal (journal.setTurn ⟨world, facilities, journal.turn.worker⟩)

/-- A run leads from one journal to another. -/
def Leads : Journal → Journal → Prop := Relation.ReflTransGen Moves

end Journal

end LogShipping.Worker
